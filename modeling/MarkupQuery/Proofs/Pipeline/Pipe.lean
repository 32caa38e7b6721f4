import Mathlib.Control.Monad.Basic
import MarkupQuery.Proofs.Pipeline.Munch
import MarkupQuery.Proofs.Pipeline.Position

/-!
# Queries joined by a pipe

A pipe stands for itself wherever it does not stand in a literal: no name and no bare run goes on
over it, and the segment before it ends there. Two texts with a pipe between them are therefore
read as the one and then the other, errors included, unless a literal is open at the pipe. The
second text is read as it is by itself, but for the positions in it. That it cannot be cut into
tokens shows first, before any stage is read.

## Main results

* `Lexeme.read_append_pipe`: a lexeme is read alike in front of a pipe
* `tokenize_append_pipe`: the tokens of two texts with a pipe between them
* `Segment.compile_append_left`, `Segment.compile_append_right`: a segment is read alike before and
  behind any text
* `Pipeline.compile_append_pipe`: the pipeline that two texts with a pipe between them write
-/

namespace MarkupQuery

/-! ## Lexemes in front of a pipe -/

/-- A lexeme that stands before a text stands before it and a pipe, too. -/
theorem Lexeme.StandsBefore.append_pipe {l : Lexeme} {after : Text} (h : l.StandsBefore after)
    (b : Text) : l.StandsBefore (after ++ CodeUnit.pipe :: b) := by
  refine h.of_head fun c hc => ?_
  cases after with
  | nil =>
    obtain rfl := Option.some.inj hc
    exact .inr (by decide)
  | cons d after => exact .inl hc

/-- **A lexeme is read alike in front of a pipe**: a run stops there, and a literal has an end of
its own. -/
theorem Lexeme.read_append_pipe {c : CodeUnit} {rest after : Text} {lexeme : Lexeme}
    (hc : c.isLayout = false) (h : read c rest = some (lexeme, after)) (b : Text) :
    read c (rest ++ CodeUnit.pipe :: b) = some (lexeme, after ++ CodeUnit.pipe :: b) := by
  obtain ⟨happend, hl⟩ := (read_eq_some_iff hc).mp h
  refine read_of_standsBefore (hl.append_pipe b) ?_
  rw [← List.append_assoc, happend, List.cons_append]

/-! ## Tokens in front of a pipe -/

/-- The pipe at a position. -/
def Token.pipeAt (position : Nat) : Token := ⟨.pipe, position, position + 1⟩

/-- The end of a text is as far from where its first lexeme stops as what follows that is long. -/
theorem Token.stop_add_length_of_read {c : CodeUnit} {rest after : Text} {lexeme : Lexeme}
    (h : Lexeme.read c rest = some (lexeme, after)) (start : Nat) :
    start + lexeme.spelling.length + after.length = start + (c :: rest).length := by
  rw [← Lexeme.spelling_append_of_read h, List.length_append, Nat.add_assoc]

/-- The tokens of a text stand in front of a pipe, and what follows the pipe is scanned as the
beginning of a stage. -/
theorem Token.scan_append_pipe {stage start : Nat} {a : Text} {tokens : List Token}
    (h : Token.scan stage start a = .ok tokens) (b : Text) :
    Token.scan stage start (a ++ CodeUnit.pipe :: b) =
      (Token.scan (start + a.length + 1) (start + a.length + 1) b).map
        (tokens ++ Token.pipeAt (start + a.length) :: ·) := by
  revert tokens
  fun_induction Token.scan stage start a with
  | case1 stage start =>
    intro tokens h
    obtain rfl : [] = tokens := Except.ok.inj h
    exact Token.scan_of_read_eq_some (by decide) rfl stage start
  | case2 stage start c rest hc ih =>
    intro tokens h
    rw [List.cons_append, Token.scan_layout hc, ih h, List.length_cons, Nat.add_right_comm start 1,
      Nat.add_assoc start]
  | case3 stage start c rest hc hread =>
    intro tokens h
    contradiction
  | case4 stage start c rest hc lexeme after hread stop stage' =>
    rename_i ih
    intro tokens h
    obtain ⟨tokens', htokens, rfl⟩ := map_eq_ok_iff.mp h
    have hlength : stop + after.length = start + (c :: rest).length :=
      Token.stop_add_length_of_read hread start
    have hlayout : c.isLayout = false := by simpa using hc
    have hpipe := Lexeme.read_append_pipe hlayout hread b
    rw [List.cons_append, Token.scan_of_read_eq_some hlayout hpipe]
    show Except.map _ (Token.scan stage' stop _) = _
    rw [ih htokens, map_map, hlength]
    rfl

/-- The tokens of a text end within it. -/
theorem Token.stop_le_of_scan {stage start : Nat} {t : Text} {tokens : List Token}
    (h : Token.scan stage start t = .ok tokens) : ∀ x ∈ tokens, x.stop ≤ start + t.length := by
  revert tokens
  fun_induction Token.scan stage start t with
  | case1 stage start =>
    intro tokens h
    obtain rfl : [] = tokens := Except.ok.inj h
    intro x hx
    contradiction
  | case2 stage start c rest hc ih =>
    intro tokens h x hx
    have := ih h x hx
    rw [List.length_cons]
    omega
  | case3 stage start c rest hc hread =>
    intro tokens h
    contradiction
  | case4 stage start c rest hc lexeme after hread stop stage' =>
    rename_i ih
    intro tokens h
    obtain ⟨tokens', htokens, rfl⟩ := map_eq_ok_iff.mp h
    have hlength : stop + after.length = start + (c :: rest).length :=
      Token.stop_add_length_of_read hread start
    intro x hx
    rcases List.mem_cons.mp hx with rfl | hx
    · show stop ≤ _
      omega
    · have := ih htokens x hx
      omega

/-! ## Excerpts -/

/-- What is cut out of a text before its end is cut out of it in front of any other. -/
theorem Text.slice_append_left {s : Text} {start stop : Nat} (h : stop ≤ s.length) (t : Text) :
    (s ++ t).slice start stop = s.slice start stop := by
  rw [slice, slice, List.take_append_of_le_length h]

/-- What is cut out of a text is cut out of it at later positions behind any other. -/
theorem Text.slice_append_right (s t : Text) (start stop : Nat) :
    (s ++ t).slice (start + s.length) (stop + s.length) = t.slice start stop := by
  rw [slice, slice, Nat.add_comm stop, List.take_length_add_append, Nat.add_comm start,
    List.drop_length_add_append]

/-- A literal without an end stands in the same stage behind any text. -/
theorem OpenLiteral.segment_shift (s t : Text) (o : OpenLiteral) :
    (o.shift s.length).segment (s ++ t) = o.segment t := by
  have hstart : o.start + s.length + 1 = o.start + 1 + s.length := Nat.add_right_comm _ _ _
  rw [segment, segment]
  dsimp only [shift]
  rw [hstart, Text.slice_append_right, Nat.add_comm _ s.length, List.drop_length_add_append]

namespace Segment

/-- The last token of a segment. -/
theorem exists_eq_append_last (first : Token) (rest : List Token) :
    ∃ front, first :: rest = front ++ [rest.getLastD first] := by
  rw [← List.getLast?_eq_some_iff, List.getLast?_cons, List.getLastD_eq_getLast?]

theorem excerpt_append_left {s : Text} {first : Token} {rest : List Token}
    (h : ∀ x ∈ first :: rest, x.stop ≤ s.length) (t : Text) :
    excerpt (s ++ t) first rest = excerpt s first rest := by
  obtain ⟨front, hfront⟩ := exists_eq_append_last first rest
  rw [hfront] at h
  have hlast := h _ (List.mem_append_right front List.mem_cons_self)
  rw [excerpt, excerpt, Text.slice_append_left hlast]

theorem excerpt_append_right (s t : Text) (first : Token) (rest : List Token) :
    excerpt (s ++ t) (first.shift s.length) (rest.map (Token.shift s.length)) =
      excerpt t first rest := by
  have hlast : (rest.map (Token.shift s.length)).getLastD (first.shift s.length) =
      (rest.getLastD first).shift s.length := by
    rw [List.getLastD_eq_getLast?, List.getLastD_eq_getLast?, List.getLast?_map]
    cases rest.getLast? <;> rfl
  rw [excerpt, excerpt, hlast, Token.start_shift, Token.stop_shift, Text.slice_append_right]

/-! ## Segments on both sides of a pipe -/

/-- A segment is read alike in front of any text. -/
theorem compile_append_left {s : Text} {segment : Segment}
    (h : ∀ x ∈ segment.tokens, x.stop ≤ s.length) (t : Text) :
    compile (s ++ t) segment = compile s segment := by
  obtain ⟨tokens, stop⟩ := segment
  cases tokens with
  | nil => rfl
  | cons first rest => simp only [compile, excerpt_append_left h]

/-- A segment is read alike behind any text, and refused at a later position. -/
theorem compile_append_right (s t : Text) (segment : Segment) :
    compile (s ++ t) (segment.shift s.length) =
      (compile t segment).mapError (ParseError.shift s.length) := by
  obtain ⟨tokens, stop⟩ := segment
  cases tokens with
  | nil => rfl
  | cons first rest =>
    simp only [shift, List.map_cons, compile, excerpt_append_right, stages_shift]
    cases stages first rest <;> rfl

/-- The tokens of the segments are those of the list. -/
theorem mem_of_mem_all {length : Nat} {tokens : List Token} {segment : Segment} {t : Token}
    (hsegment : segment ∈ all length tokens) (ht : t ∈ segment.tokens) : t ∈ tokens := by
  induction tokens generalizing segment with
  | nil =>
    rw [all, cut, List.mem_singleton] at hsegment
    subst hsegment
    contradiction
  | cons u tokens ih =>
    by_cases hu : u.lexeme = .pipe
    · rw [all, cut_cons_of_pipe hu, List.mem_cons] at hsegment
      rcases hsegment with rfl | hsegment
      · contradiction
      · exact List.mem_cons_of_mem _ (ih hsegment ht)
    · rw [all, cut_cons_of_ne hu, List.mem_cons] at hsegment
      rcases hsegment with rfl | hsegment
      · -- The first segment has the token in front.
        rcases List.mem_cons.mp ht with rfl | ht
        · exact List.mem_cons_self
        · exact List.mem_cons_of_mem _ (ih List.mem_cons_self ht)
      · exact List.mem_cons_of_mem _ (ih (List.mem_cons_of_mem _ hsegment) ht)

end Segment

/-! ## Queries -/

/-- **The tokens of two texts with a pipe between them** are those of the one, the pipe, and those
of the other at later positions. -/
theorem tokenize_append_pipe {a : Text} {tokens : List Token} (ha : tokenize a = .ok tokens)
    (b : Text) :
    tokenize (a ++ [CodeUnit.pipe] ++ b) =
      ((tokenize b).mapError (ParseError.shift (a.length + 1))).map fun more =>
        tokens ++ Token.pipeAt a.length :: more.map (Token.shift (a.length + 1)) := by
  have hscan := Token.scan_append_pipe (mapError_eq_ok_iff.mp ha) b
  have hlength : (a ++ [CodeUnit.pipe]).length = a.length + 1 := List.length_append
  have hshift := Token.scan_shift (a.length + 1) 0 0 b
  rw [Nat.zero_add] at hscan hshift
  rw [tokenize, List.append_assoc, List.singleton_append, hscan, hshift, tokenize]
  cases Token.scan 0 0 b with
  | ok more => rfl
  | error o =>
    -- The open literal stands in the same stage, which begins behind the first text.
    have hsegment := OpenLiteral.segment_shift (a ++ [CodeUnit.pipe]) b o
    rw [hlength, List.append_assoc, List.singleton_append] at hsegment
    exact congrArg Except.error (congrArg (ParseError.mk ⟨.unterminatedLiteral, _⟩) hsegment)

/-- The only text that cannot be cut is one with an open literal. -/
theorem code_of_tokenize {text : Text} {e : ParseError} (h : tokenize text = .error e) :
    e.code = .unterminatedLiteral := by
  rw [tokenize] at h
  cases hscan : Token.scan 0 0 text with
  | ok tokens =>
    rw [hscan] at h
    contradiction
  | error o =>
    rw [hscan] at h
    rw [← Except.error.inj h]
    rfl

namespace Pipeline

/-- The stages of segments that are read one after the other. -/
def ofSegments (whole : Text) (segments : List Segment) : Except ParseError Pipeline :=
  (segments.mapM (Segment.compile whole)).map List.flatten

theorem compile_of_tokenize {text : Text} {tokens : List Token} (h : tokenize text = .ok tokens) :
    compile text = ofSegments text (Segment.all text.length tokens) := by
  rw [compile, h]
  rfl

theorem ofSegments_cons (whole : Text) (segment : Segment) (segments : List Segment) :
    ofSegments whole (segment :: segments) = do
      let p ← segment.compile whole
      let q ← ofSegments whole segments
      return p ++ q := by
  rw [ofSegments, ofSegments, List.mapM_cons]
  cases segment.compile whole with
  | error e => rfl
  | ok p =>
    cases segments.mapM (Segment.compile whole) with
    | error e => rfl
    | ok ps => rfl

/-- Segments are read up to the first error among all of them. -/
theorem ofSegments_append (whole : Text) (before after : List Segment) :
    ofSegments whole (before ++ after) = do
      let p ← ofSegments whole before
      let q ← ofSegments whole after
      return p ++ q := by
  induction before with
  | nil =>
    have hnil : ofSegments whole [] = .ok [] := rfl
    rw [List.nil_append, hnil]
    cases ofSegments whole after <;> rfl
  | cons segment before ih =>
    rw [List.cons_append, ofSegments_cons, ofSegments_cons, ih]
    cases segment.compile whole with
    | error e => rfl
    | ok p =>
      cases ofSegments whole before with
      | error e => rfl
      | ok ps =>
        cases ofSegments whole after with
        | error e => rfl
        | ok qs => exact congrArg Except.ok (List.append_assoc p ps qs).symm

theorem ofSegments_append_left {s : Text} {segments : List Segment}
    (h : ∀ segment ∈ segments, ∀ x ∈ segment.tokens, x.stop ≤ s.length) (t : Text) :
    ofSegments (s ++ t) segments = ofSegments s segments := by
  induction segments with
  | nil => rfl
  | cons segment segments ih =>
    rw [List.forall_mem_cons] at h
    rw [ofSegments_cons, ofSegments_cons, Segment.compile_append_left h.1, ih h.2]

theorem ofSegments_append_right (s t : Text) (segments : List Segment) :
    ofSegments (s ++ t) (segments.map (Segment.shift s.length)) =
      (ofSegments t segments).mapError (ParseError.shift s.length) := by
  induction segments with
  | nil => rfl
  | cons segment segments ih =>
    rw [List.map_cons, ofSegments_cons, ofSegments_cons, Segment.compile_append_right, ih,
      mapError_bind]
    refine congrArg _ (funext fun p => ?_)
    rw [mapError_bind]
    rfl

/-- **Two texts with a pipe between them are read as the one and then the other**, blank ones
included, when no literal is open at the pipe. An open literal in the second text shows before
anything else; then an error in the first, and then one in the second. What shows in the second
text shows at a later position, and is the same otherwise. -/
theorem compile_append_pipe {a : Text} {tokens : List Token} (ha : tokenize a = .ok tokens)
    (b : Text) :
    (∀ e, tokenize b = .error e → e.code = .unterminatedLiteral) ∧
      compile (a ++ "|" ++ b) =
        match tokenize b, compile a, compile b with
        | .error e, _, _ => .error (e.shift (a.length + 1))
        | .ok _, .error e, _ => .error e
        | .ok _, .ok _, .error e => .error (e.shift (a.length + 1))
        | .ok _, .ok p, .ok q => .ok (p ++ q) := by
  have hpipe : ("|" : Text) = [CodeUnit.pipe] := by decide
  rw [hpipe]
  have hlength : (a ++ [CodeUnit.pipe]).length = a.length + 1 := List.length_append
  have htokens := tokenize_append_pipe ha b
  cases hb : tokenize b with
  | error e =>
    rw [hb] at htokens
    constructor
    · intro e' he
      rw [← Except.error.inj he]
      exact code_of_tokenize hb
    · rw [compile, htokens]
      rfl
  | ok more =>
    refine ⟨nofun, ?_⟩
    rw [hb] at htokens
    -- The tokens of the first text end in it, and those of the second are moved behind the pipe.
    have hstop : ∀ segment ∈ Segment.all a.length tokens, ∀ x ∈ segment.tokens,
        x.stop ≤ a.length := by
      intro segment hsegment x hx
      have hmem := Segment.mem_of_mem_all hsegment hx
      have := Token.stop_le_of_scan (mapError_eq_ok_iff.mp ha) x hmem
      omega
    have hsegments : Segment.all (a ++ [CodeUnit.pipe] ++ b).length
        (tokens ++ Token.pipeAt a.length :: more.map (Token.shift (a.length + 1))) =
          Segment.all a.length tokens ++
            (Segment.all b.length more).map (Segment.shift (a.length + 1)) := by
      rw [List.length_append, hlength, Nat.add_comm, Segment.all_append_pipe rfl,
        Segment.all_shift]
      rfl
    have hright := ofSegments_append_right (a ++ [CodeUnit.pipe]) b (Segment.all b.length more)
    rw [hlength] at hright
    rw [compile_of_tokenize htokens, hsegments, ofSegments_append, hright, List.append_assoc,
      ofSegments_append_left hstop, compile_of_tokenize ha, compile_of_tokenize hb]
    cases ofSegments a (Segment.all a.length tokens) with
    | error e => rfl
    | ok p =>
      cases ofSegments b (Segment.all b.length more) with
      | error e => rfl
      | ok q => rfl

/-- An open literal behind the pipe shows before the unknown operator in front of it; and when
nothing is behind the pipe, the empty stage shows at the end of the text. -/
theorem compile_append_pipe_open :
    tokenize "@nope()" = .ok [⟨.operator "@nope", 0, 5⟩, ⟨.lparen, 5, 6⟩, ⟨.rparen, 6, 7⟩] ∧
      compile (("@nope()" : Text) ++ "|" ++ (" #attr(`id" : Text)) =
        .error { cause := .unterminatedLiteral, position := 15, segment := "#attr(`id" } ∧
      tokenize "@flat()" = .ok [⟨.operator "@flat", 0, 5⟩, ⟨.lparen, 5, 6⟩, ⟨.rparen, 6, 7⟩] ∧
      compile (("@flat()" : Text) ++ "|" ++ ([] : Text)) =
        .error { cause := .emptyStage, position := 8, segment := [] } := by
  have hnope : tokenize "@nope()" =
      .ok [⟨.operator "@nope", 0, 5⟩, ⟨.lparen, 5, 6⟩, ⟨.rparen, 6, 7⟩] := by decide +kernel
  have hflat : tokenize "@flat()" =
      .ok [⟨.operator "@flat", 0, 5⟩, ⟨.lparen, 5, 6⟩, ⟨.rparen, 6, 7⟩] := by decide +kernel
  have hopen : tokenize " #attr(`id" =
      .error { cause := .unterminatedLiteral, position := 7, segment := "#attr(`id" } := by
    decide +kernel
  have hfirst : compile "@flat()" = .ok [.select .flat] := by decide +kernel
  have hblank : compile [] = .error { cause := .emptyStage, position := 0, segment := [] } := by
    decide +kernel
  refine ⟨hnope, ?_, hflat, ?_⟩
  · rw [(compile_append_pipe hnope _).2, hopen]
    rfl
  · have htokens : tokenize [] = .ok [] := by decide +kernel
    rw [(compile_append_pipe hflat []).2, htokens, hfirst, hblank]
    rfl

end Pipeline

end MarkupQuery
