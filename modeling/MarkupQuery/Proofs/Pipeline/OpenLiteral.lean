import Mathlib.Algebra.Ring.Parity
import Mathlib.Data.List.TakeWhile
import MarkupQuery.Proofs.Pipeline.Munch
import MarkupQuery.Proofs.Pipeline.Refusal
import MarkupQuery.Proofs.Text.Trim

/-!
# Open literals

A literal takes the next two backticks of a text, and no other lexeme has any. So the backticks of a
text pair up from left to right, whatever stands between them, and a text can be cut into tokens
exactly when none is left over. The one that is left over is the last. A pipe outside all pairs
begins a stage, and a pipe within a pair does not; the stage of an open literal is quoted up to the
first pipe behind its backtick.

## Main definitions

* `Text.Paired`: every backtick of a text has its pair
* `Text.StageBegins`: the position where the last stage of a text begins
* `Text.StageStops`: the position where the stage around a position stops
* `OpenLiteral.OpensIn`: a backtick that is left over, and its stage
* `Token.ScansFrom`: what holds wherever a scan goes on

## Main results

* `Token.scan_paired_or_opensIn`: a scan ends with all backticks in pairs, or with one that is left
  over
* `Pipeline.code_ne_of_ofSegments`: no segment is refused for an open literal
* `tokenize_eq_error_iff_odd`: the texts that cannot be cut, and the error
-/

namespace MarkupQuery

/-! ## Pairs of backticks -/

namespace Text

/-- Every backtick of the text has its pair. -/
def Paired (t : Text) : Prop := Even (t.count ('`' : CodeUnit))

/-- The position where the last stage of a text begins: behind the last pipe that is outside all
pairs of backticks, or at the start. -/
structure StageBegins (t : Text) (s : Nat) : Prop where
  begins : s = 0 ∨ ∃ i, s = i + 1 ∧ t[i]? = some ('|' : CodeUnit) ∧ Paired (t.take i)
  last : ∀ i, s ≤ i → t[i]? = some ('|' : CodeUnit) → ¬ Paired (t.take i)

/-- The position of the first pipe behind a position, or of the end of the text. -/
structure StageStops (t : Text) (position stop : Nat) : Prop where
  lt : position < stop
  first : ∀ i, position < i → i < stop → t[i]? ≠ some ('|' : CodeUnit)
  stops : stop = t.length ∨ t[stop]? = some ('|' : CodeUnit)

variable {s t : Text}

theorem paired_iff : t.Paired ↔ Even (t.count CodeUnit.backtick) := Iff.rfl

theorem paired_append (hs : s.Paired) : (s ++ t).Paired ↔ t.Paired := by
  rw [Paired, List.count_append, Nat.even_add]
  exact ⟨fun h => h.mp hs, iff_of_true hs⟩

theorem paired_of_notMem (h : CodeUnit.backtick ∉ t) : t.Paired := by
  rw [paired_iff, List.count_eq_zero.mpr h]
  exact Even.zero

theorem not_paired_backtick (h : CodeUnit.backtick ∉ t) : ¬ Paired (CodeUnit.backtick :: t) := by
  rw [paired_iff, List.count_cons_self, List.count_eq_zero.mpr h]
  decide

theorem paired_enclosed (h : CodeUnit.backtick ∉ t) : t.enclosed.Paired := by
  rw [enclosed, paired_iff, List.count_append, List.count_cons_self, List.count_eq_zero.mpr h]
  decide

namespace StageBegins

variable {stage : Nat}

/-- The first stage begins at the start. -/
theorem nil : StageBegins [] 0 := ⟨.inl rfl, nofun⟩

theorem le_length (h : t.StageBegins stage) : stage ≤ t.length := by
  rcases h.begins with rfl | ⟨i, rfl, hi, -⟩
  · exact Nat.zero_le _
  · exact (List.getElem?_eq_some_iff.mp hi).1

/-- A text in which all pipes are within pairs goes on with the stage. -/
theorem append (h : s.StageBegins stage)
    (ht : ∀ i, t[i]? = some CodeUnit.pipe → ¬ Paired (s ++ t.take i)) :
    (s ++ t).StageBegins stage := by
  constructor
  · refine h.begins.imp_right ?_
    rintro ⟨i, rfl, hi, hpaired⟩
    have hlt := (List.getElem?_eq_some_iff.mp hi).1
    refine ⟨i, rfl, ?_, ?_⟩
    · rw [List.getElem?_append_left hlt, hi]
    · rwa [List.take_append_of_le_length hlt.le]
  · -- A pipe stands in the first text, or behind it.
    intro i hle hi
    rcases lt_or_ge i s.length with hlt | hge
    · rw [List.getElem?_append_left hlt] at hi
      rw [List.take_append_of_le_length hlt.le]
      exact h.last i hle hi
    · rw [List.getElem?_append_right hge] at hi
      rw [List.take_append, List.take_of_length_le hge]
      exact ht _ hi

/-- A pipe outside all pairs begins a stage. -/
theorem pipe (h : s.Paired) : (s ++ [CodeUnit.pipe]).StageBegins (s.length + 1) := by
  constructor
  · refine .inr ⟨s.length, rfl, ?_, ?_⟩
    · rw [List.getElem?_append_right le_rfl, Nat.sub_self]
      rfl
    · rwa [List.take_left]
  · intro i hle hi
    have hlt := (List.getElem?_eq_some_iff.mp hi).1
    rw [List.length_append, List.length_singleton] at hlt
    omega

end StageBegins

end Text

/-! ## Lexemes -/

namespace Lexeme

variable {c : CodeUnit} {rest after : Text} {l : Lexeme}

/-- A lexeme is a literal, the pipe, or has neither backtick nor pipe. -/
theorem StandsBefore.backticks (h : l.StandsBefore after) :
    (∃ content, l = .literal content ∧ CodeUnit.backtick ∉ content) ∨ l = .pipe ∨
      l ≠ .pipe ∧ CodeUnit.backtick ∉ l.spelling ∧ CodeUnit.pipe ∉ l.spelling := by
  have hbacktick : CodeUnit.backtick ∈ delimiters := by decide
  have hpipe : CodeUnit.pipe ∈ delimiters := by decide
  cases h with
  | literal hcontent => exact .inl ⟨_, rfl, hcontent⟩
  | @operator sign letters hsign hne hletters hstop =>
    have hplain : ∀ c ∈ sign :: letters, c ∉ delimiters := by
      refine List.forall_mem_cons.mpr ⟨?_, fun c hc hmem => ?_⟩
      · rcases hsign with rfl | rfl <;> decide
      · exact notMem_letters_of_mem_delimiters hmem (hletters c hc)
    exact .inr (.inr ⟨nofun, fun h => hplain _ h hbacktick, fun h => hplain _ h hpipe⟩)
  | bare hne hplain hsign hstop =>
    exact .inr (.inr ⟨nofun, fun h => hplain _ h hbacktick, fun h => hplain _ h hpipe⟩)
  | pipe => exact .inr (.inl rfl)
  | lparen | rparen | comma => exact .inr (.inr ⟨nofun, by decide, by decide⟩)

/-- No lexeme is read at a backtick that is the last. -/
theorem of_read_eq_none (h : read c rest = none) :
    c = CodeUnit.backtick ∧ CodeUnit.backtick ∉ rest := by
  simp only [read] at h
  split at h
  · contradiction
  split at h
  · next hquote =>
    split at h
    · next hdrop =>
      refine ⟨hquote, fun hmem => ?_⟩
      have := List.dropWhile_eq_nil_iff.mp hdrop _ hmem
      simp at this
    · contradiction
  · split at h <;> contradiction

theorem StandsBefore.paired (h : l.StandsBefore after) : Text.Paired l.spelling := by
  rcases h.backticks with ⟨content, rfl, hcontent⟩ | rfl | ⟨-, hbacktick, -⟩
  · exact Text.paired_enclosed hcontent
  · exact Text.paired_of_notMem (by decide)
  · exact Text.paired_of_notMem hbacktick

/-- A stage goes on over a lexeme, unless it is a pipe. -/
theorem StandsBefore.stageBegins (h : l.StandsBefore after) {s : Text} {stage : Nat}
    (hs : s.Paired) (hstage : s.StageBegins stage) :
    Text.StageBegins (s ++ l.spelling)
      (if l = .pipe then s.length + l.spelling.length else stage) := by
  rcases h.backticks with ⟨content, rfl, hcontent⟩ | rfl | ⟨hne, -, hpipe⟩
  · rw [if_neg nofun]
    refine hstage.append fun i hi => ?_
    rw [Text.paired_append hs]
    -- A pipe in the literal has one of its backticks before it.
    cases i with
    | zero => exact absurd (Option.some.inj hi) (by decide)
    | succ i =>
      have hcons : (Lexeme.literal content).spelling[i + 1]? =
          (content ++ [CodeUnit.backtick])[i]? := rfl
      rw [hcons] at hi
      have hlt : i < content.length := by
        refine Nat.lt_of_not_le fun hge => ?_
        rw [List.getElem?_append_right hge] at hi
        exact absurd (List.mem_singleton.mp (List.mem_of_getElem? hi)) (by decide)
      have htake : (Lexeme.literal content).spelling.take (i + 1) =
          CodeUnit.backtick :: content.take i :=
        congrArg (_ :: ·) (List.take_append_of_le_length hlt.le)
      rw [htake]
      exact Text.not_paired_backtick fun h => hcontent (List.mem_of_mem_take h)
  · exact Text.StageBegins.pipe hs
  · rw [if_neg hne]
    exact hstage.append fun i hi => absurd (List.mem_of_getElem? hi) hpipe

end Lexeme

/-! ## Scanning -/

/-- A backtick that is left over: all before it are in pairs, and there is none behind it. -/
structure OpenLiteral.OpensIn (whole : Text) (o : OpenLiteral) : Prop where
  paired : Text.Paired (whole.take o.start)
  backtick : whole[o.start]? = some CodeUnit.backtick
  last : CodeUnit.backtick ∉ whole.drop (o.start + 1)
  stage : Text.StageBegins (whole.take o.start) o.stage

namespace Token

/-- What holds wherever a scan goes on: all backticks up to there are in pairs, and the last stage
begins at `stage`. -/
structure ScansFrom (whole : Text) (stage start : Nat) : Prop where
  paired : Text.Paired (whole.take start)
  stage : Text.StageBegins (whole.take start) stage

variable {whole t : Text} {stage start : Nat}

namespace ScansFrom

theorem zero : ScansFrom whole 0 0 := ⟨Even.zero, .nil⟩

/-- Layout has neither backtick nor pipe. -/
theorem layout (h : ScansFrom whole stage start) {c : CodeUnit} {rest : Text}
    (ht : whole.drop start = c :: rest) (hc : c.isLayout = true) :
    ScansFrom whole stage (start + 1) := by
  have hnot : CodeUnit.backtick ∉ [c] ∧ CodeUnit.pipe ∉ [c] := by
    simp only [CodeUnit.isLayout, Bool.or_eq_true, beq_iff_eq] at hc
    rcases hc with ((rfl | rfl) | rfl) | rfl <;> decide
  have hcons : whole.drop start = [c] ++ rest := ht
  have htake : whole.take (start + 1) = whole.take start ++ [c] :=
    Text.take_of_drop_eq_append hcons
  constructor
  · rw [htake, Text.paired_append h.paired]
    exact Text.paired_of_notMem hnot.1
  · rw [htake]
    exact h.stage.append fun i hi => absurd (List.mem_of_getElem? hi) hnot.2

/-- A lexeme has its backticks in pairs, and after a pipe a stage begins. -/
theorem lexeme (h : ScansFrom whole stage start) {l : Lexeme} {after : Text}
    (ht : whole.drop start = l.spelling ++ after) (hl : l.StandsBefore after) :
    ScansFrom whole (if l = .pipe then start + l.spelling.length else stage)
      (start + l.spelling.length) := by
  have hlength : (whole.take start).length = start := by
    have hpos := List.length_pos_iff.mpr hl.spelling_ne_nil
    have := congrArg List.length ht
    rw [List.length_drop, List.length_append] at this
    rw [List.length_take]
    omega
  have hbegins := hl.stageBegins h.paired h.stage
  rw [hlength] at hbegins
  constructor
  · rw [Text.take_of_drop_eq_append ht, Text.paired_append h.paired]
    exact hl.paired
  · rw [Text.take_of_drop_eq_append ht]
    exact hbegins

end ScansFrom

/-- **A scan ends with all backticks in pairs, or with one that is left over.** -/
theorem scan_paired_or_opensIn (ht : whole.drop start = t) (h : ScansFrom whole stage start) :
    (∃ tokens, scan stage start t = .ok tokens ∧ whole.Paired) ∨
      ∃ o, scan stage start t = .error o ∧ o.OpensIn whole := by
  -- By induction on the scan, with `ScansFrom` for the invariant.
  fun_induction scan stage start t with
  | case1 stage start =>
    have hpaired := h.paired
    rw [List.take_of_length_le (List.drop_eq_nil_iff.mp ht)] at hpaired
    exact .inl ⟨[], rfl, hpaired⟩
  | case2 stage start c rest hc ih =>
    have hrest : whole.drop (start + 1) = rest := by rw [← List.tail_drop, ht]; rfl
    exact ih hrest (h.layout ht hc)
  | case3 stage start c rest hc hread =>
    -- Nothing is read at a backtick that is the last.
    obtain ⟨rfl, hrest⟩ := Lexeme.of_read_eq_none hread
    refine .inr ⟨_, rfl, h.paired, ?_, ?_, h.stage⟩
    · rw [← List.head?_drop, ht]
      rfl
    · rw [← List.tail_drop, ht]
      exact hrest
  | case4 stage start c rest hc lexeme after hread stop stage' =>
    rename_i ih
    obtain ⟨happend, hl⟩ := (Lexeme.read_eq_some_iff (by simpa using hc)).mp hread
    have hdrop := ht.trans happend.symm
    have hafter := (Text.slice_of_drop_eq_append hdrop).2
    rcases ih hafter (h.lexeme hdrop hl) with ⟨tokens, htokens, hpaired⟩ | ⟨o, ho, hopens⟩
    · exact .inl ⟨_, map_eq_ok_iff.mpr ⟨tokens, htokens, rfl⟩, hpaired⟩
    · exact .inr ⟨o, map_eq_error_iff.mpr ho, hopens⟩

end Token

/-! ## The stage of an open literal -/

namespace OpenLiteral

variable {text : Text} {o : OpenLiteral}

theorem OpensIn.lt_length (h : o.OpensIn text) : o.start < text.length :=
  (List.getElem?_eq_some_iff.mp h.backtick).1

theorem OpensIn.stage_le (h : o.OpensIn text) : o.stage ≤ o.start :=
  h.stage.le_length.trans (List.length_take_le _ _)

/-- The backtick that is left over is the odd one. -/
theorem OpensIn.odd (h : o.OpensIn text) : Odd (text.count ('`' : CodeUnit)) := by
  have hdrop : text.drop o.start = CodeUnit.backtick :: text.drop (o.start + 1) := by
    obtain ⟨hlt, hget⟩ := List.getElem?_eq_some_iff.mp h.backtick
    rw [List.drop_eq_getElem_cons hlt, hget]
  have hpaired := Text.not_paired_backtick h.last
  rw [← hdrop, ← Text.paired_append h.paired, List.take_append_drop] at hpaired
  exact Nat.not_even_iff_odd.mp hpaired

/-- The stage of an open literal goes on up to the first pipe behind its backtick. -/
theorem OpensIn.exists_stageStops (h : o.OpensIn text) :
    ∃ stop, text.StageStops o.start stop ∧
      o.segment text = (text.slice o.stage stop).trim CodeUnit.isWhitespace := by
  have hsplit := (List.takeWhile_append_dropWhile (p := (· != CodeUnit.pipe))
    (l := text.drop (o.start + 1))).symm
  have hstops := Text.stopsAt_dropWhile (· != CodeUnit.pipe) (text.drop (o.start + 1))
  have hrun : ∀ c ∈ (text.drop (o.start + 1)).takeWhile (· != CodeUnit.pipe),
      (c != CodeUnit.pipe) = true := List.all_eq_true.mp List.all_takeWhile
  rw [segment]
  generalize (text.drop (o.start + 1)).takeWhile (· != CodeUnit.pipe) = run at hsplit hrun ⊢
  generalize (text.drop (o.start + 1)).dropWhile (· != CodeUnit.pipe) = after at hsplit hstops
  obtain ⟨hslice, hafter⟩ := Text.slice_of_drop_eq_append hsplit
  have hlt := h.lt_length
  refine ⟨o.start + 1 + run.length, ⟨by omega, ?_, ?_⟩, ?_⟩
  · intro i hi hstop hpipe
    have hget : (text.drop (o.start + 1))[i - (o.start + 1)]? = some CodeUnit.pipe := by
      rw [List.getElem?_drop, Nat.add_sub_cancel' hi]
      exact hpipe
    rw [hsplit, List.getElem?_append_left (by omega)] at hget
    have := hrun _ (List.mem_of_getElem? hget)
    contradiction
  · cases after with
    | nil =>
      -- The run goes on up to the end of the text.
      have hlength := congrArg List.length hsplit
      rw [List.append_nil, List.length_drop] at hlength
      exact .inl (by omega)
    | cons c after =>
      rw [← List.head?_drop, hafter]
      exact .inr (congrArg some (by simpa using hstops))
  · have hstage := h.stage_le
    rw [← Text.slice_append_slice (by omega) (Nat.le_add_right (o.start + 1) run.length), hslice]

end OpenLiteral

/-! ## Queries -/

/-- A segment is refused for no open literal. -/
theorem Segment.code_ne_of_compile (whole : Text) (segment : Segment) :
    Refuses (·.code ≠ .unterminatedLiteral) (segment.compile whole) := by
  obtain ⟨tokens, stop⟩ := segment
  cases tokens with
  | nil => exact .error (show ErrorCode.malformedStage ≠ .unterminatedLiteral by decide)
  | cons first rest =>
    rw [Segment.compile_cons]
    refine .mapError fun f hf hcode => ?_
    have hrefusal := Segment.refusal_of_stages hf
    rw [show f.cause.code = .unterminatedLiteral from hcode] at hrefusal
    contradiction

namespace Pipeline

/-- **Segments are refused for no open literal.** -/
theorem code_ne_of_ofSegments (whole : Text) (segments : List Segment) :
    Refuses (·.code ≠ .unterminatedLiteral) (ofSegments whole segments) := by
  induction segments with
  | nil => exact .ok []
  | cons segment segments ih =>
    rw [ofSegments_cons]
    exact .bind (Segment.code_ne_of_compile whole segment) fun _ _ => .bind ih fun _ _ => .ok _

/-- A query is refused for an open literal when it cannot be cut into tokens. -/
theorem compile_eq_unterminated_iff {text : Text} {e : ParseError} :
    compile text = .error e ∧ e.code = .unterminatedLiteral ↔ tokenize text = .error e := by
  constructor
  · rintro ⟨he, hcode⟩
    cases htokens : tokenize text with
    | ok tokens =>
      rw [compile_of_tokenize htokens] at he
      exact absurd hcode (code_ne_of_ofSegments _ _ e he)
    | error e' =>
      rw [compile, htokens] at he
      exact congrArg Except.error (Except.error.inj he)
  · intro he
    refine ⟨?_, code_of_tokenize he⟩
    rw [compile, he]
    rfl

end Pipeline

/-- **A text cannot be cut into tokens exactly when it has an odd number of backticks**, and then it
is no query for this reason. The error shows at the last backtick, and quotes the stage around it:
the stage begins behind the last pipe outside all pairs, and stops at the next pipe. -/
theorem tokenize_eq_error_iff_odd (text : Text) :
    (∀ e, Pipeline.compile text = .error e ∧ e.code = .unterminatedLiteral ↔
        tokenize text = .error e) ∧
      ((∃ e, tokenize text = .error e) ↔ Odd (text.count ('`' : CodeUnit))) ∧
      (∀ e, tokenize text = .error e →
        e.code = .unterminatedLiteral ∧ text[e.position]? = some ('`' : CodeUnit) ∧
        (∀ i, e.position < i → text[i]? ≠ some ('`' : CodeUnit)) ∧
        ∃ start stop, Text.StageBegins (text.take e.position) start ∧
          text.StageStops e.position stop ∧
          ∃ lead tail, text.slice start stop = lead ++ e.segment ++ tail ∧
            Text.Trims CodeUnit.whitespace lead e.segment tail) ∧
      (Even (text.count ('`' : CodeUnit)) → ∃ tokens, tokenize text = .ok tokens) := by
  have hscan : (∃ tokens, Token.scan 0 0 text = .ok tokens ∧ text.Paired) ∨
      ∃ o, Token.scan 0 0 text = .error o ∧ o.OpensIn text :=
    Token.scan_paired_or_opensIn List.drop_zero .zero
  refine ⟨fun e => Pipeline.compile_eq_unterminated_iff, ?_⟩
  rcases hscan with ⟨tokens, hscan, heven⟩ | ⟨o, hscan, ho⟩
  · have htokens : tokenize text = .ok tokens := mapError_eq_ok_iff.mpr hscan
    have hne : ∀ e, tokenize text ≠ .error e := by
      rw [htokens]
      exact nofun
    refine ⟨iff_of_false ?_ (Nat.not_odd_iff_even.mpr heven), ?_, fun _ => ⟨tokens, htokens⟩⟩
    · rintro ⟨e, he⟩
      exact hne e he
    · intro e he
      exact absurd he (hne e)
  · have herror : tokenize text = .error
        { cause := .unterminatedLiteral, position := o.start, segment := o.segment text } :=
      mapError_eq_error_iff.mpr ⟨o, hscan, rfl⟩
    refine ⟨iff_of_true ⟨_, herror⟩ ho.odd, ?_, fun heven => ?_⟩
    · intro e he
      obtain rfl := Except.error.inj (herror.symm.trans he)
      obtain ⟨stop, hstop, hsegment⟩ := ho.exists_stageStops
      refine ⟨rfl, ho.backtick, fun i hi hget => ?_, o.stage, stop, ho.stage, hstop,
        (Text.exists_trims_iff CodeUnit.isWhitespace_iff).mpr hsegment⟩
      refine ho.last (List.mem_iff_getElem?.mpr ⟨i - (o.start + 1), ?_⟩)
      rw [List.getElem?_drop, Nat.add_sub_cancel' hi]
      exact hget
    · exact absurd heven (Nat.not_even_iff_odd.mpr ho.odd)

end MarkupQuery
