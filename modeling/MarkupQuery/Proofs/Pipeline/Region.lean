import Mathlib.Data.List.Forall2
import Mathlib.Order.Nat
import MarkupQuery.Proofs.Pipeline.Munch
import MarkupQuery.Proofs.Pipeline.Refusal
import MarkupQuery.Proofs.Text.Trim
import MarkupQuery.Proofs.Text.Unit

/-!
# The region of an error

The pipes of a query cut its text into regions, one for each stage. What is wrong with a query is
wrong with one region, the first that is no query by itself, and it is the same there: the error of
the query is the error of that region at a later position. Literals with a pipe in them are cut by
nothing, and the layout around a stage makes no difference to what is quoted of it.

## Main definitions

* `Region`: a part of a text
* `Region.all`: the regions between the pipes
* `Region.Holds`: the segment of a region

## Main results

* `Region.forall₂_between`: the segments of a query are those of its regions
* `Region.Holds.compile_eq`: a segment is read as its region is by itself
* `Pipeline.compile_error_of_pipeFree`: what is wrong with a query of one stage shows in it
* `Pipeline.exists_region_of_compile_error`: an error shows in the first region that is no query
-/

namespace MarkupQuery

/-! ## Regions -/

/-- A part of a text. -/
structure Region where
  /-- The position of its first unit. -/
  start : Nat
  /-- The position after its last unit. -/
  stop : Nat
  deriving DecidableEq, Repr

namespace Region

/-- What stands in a region of the text `whole`. -/
def text (whole : Text) (r : Region) : Text := whole.slice r.start r.stop

/-- A position lies in a region or at its end. -/
def Contains (r : Region) (i : Nat) : Prop := r.start ≤ i ∧ i ≤ r.stop

/-- The regions from the position `start` on that end at the pipes, and at the end of a text of the
given length. -/
def between (start length : Nat) (tokens : List Token) : List Region :=
  let pipes := tokens.filter (·.lexeme = .pipe)
  List.zipWith mk (start :: pipes.map Token.stop) (pipes.map Token.start ++ [length])

/-- The regions of a text of the given length. -/
def all (length : Nat) (tokens : List Token) : List Region := between 0 length tokens

theorem filter_of_pipeFree {tokens : List Token} (h : Segment.PipeFree tokens) :
    tokens.filter (·.lexeme = .pipe) = [] :=
  List.filter_eq_nil_iff.mpr fun t ht => by simpa using h t ht

theorem between_of_pipeFree {tokens : List Token} (h : Segment.PipeFree tokens)
    (start length : Nat) : between start length tokens = [⟨start, length⟩] := by
  rw [between, filter_of_pipeFree h]
  rfl

theorem between_append_pipe {front : List Token} (h : Segment.PipeFree front) {pipe : Token}
    (hpipe : pipe.lexeme = .pipe) (start length : Nat) (rest : List Token) :
    between start length (front ++ pipe :: rest) =
      ⟨start, pipe.start⟩ :: between pipe.stop length rest := by
  have hpipes : (front ++ pipe :: rest).filter (·.lexeme = .pipe) =
      pipe :: rest.filter (·.lexeme = .pipe) := by
    simp [filter_of_pipeFree h, hpipe]
  rw [between, hpipes]
  rfl

/-- The segment of a region: its tokens are those of the region, at their places in the whole
text. -/
structure Holds (whole : Text) (r : Region) (segment : Segment) : Prop where
  start_le : r.start ≤ r.stop
  stop_le : r.stop ≤ whole.length
  stop_eq : segment.stop = r.stop
  pipeFree : Segment.PipeFree segment.tokens
  isMunch : Token.IsMunch (whole.take r.stop) r.start segment.tokens

/-- **The segments of a query are those of its regions.** -/
theorem forall₂_between {whole : Text} {start : Nat} {tokens : List Token}
    (hstart : start ≤ whole.length) (h : Token.IsMunch whole start tokens) :
    List.Forall₂ (Holds whole) (between start whole.length tokens)
      (Segment.all whole.length tokens) := by
  -- The first pipe ends a region, and the rest begins behind it.
  induction tokens using Segment.cut_induction generalizing start with
  | single tokens hfree =>
    rw [between_of_pipeFree hfree, Segment.all_of_pipeFree hfree]
    refine .cons ⟨hstart, le_rfl, rfl, hfree, ?_⟩ .nil
    rwa [List.take_length]
  | pipe front pipe rest hfree hpipe ih =>
    obtain ⟨hle, hlt, hstop⟩ := h.within pipe (List.mem_append_right front List.mem_cons_self)
    rw [between_append_pipe hfree hpipe, Segment.all_append_pipe hpipe,
      Segment.all_of_pipeFree hfree]
    exact .cons ⟨hle, hlt.le.trans hstop, rfl, hfree, h.front⟩ (ih hstop h.behind)

/-- The regions come in order, with a pipe between any two. -/
theorem pairwise_between {whole : Text} {start : Nat} {tokens : List Token}
    (h : Token.IsMunch whole start tokens) :
    (∀ r ∈ between start whole.length tokens, start ≤ r.start) ∧
      (between start whole.length tokens).Pairwise fun q r => q.stop < r.start := by
  induction tokens using Segment.cut_induction generalizing start with
  | single tokens hfree =>
    rw [between_of_pipeFree hfree]
    exact ⟨List.forall_mem_singleton.mpr le_rfl, List.pairwise_singleton _ _⟩
  | pipe front pipe rest hfree hpipe ih =>
    obtain ⟨hle, hlt, -⟩ := h.within pipe (List.mem_append_right front List.mem_cons_self)
    obtain ⟨hstart, hpairwise⟩ := ih h.behind
    rw [between_append_pipe hfree hpipe]
    constructor
    · refine List.forall_mem_cons.mpr ⟨le_rfl, fun r hr => ?_⟩
      have := hstart r hr
      omega
    · refine List.pairwise_cons.mpr ⟨fun r hr => ?_, hpairwise⟩
      exact hlt.trans_le (hstart r hr)

namespace Holds

variable {whole : Text} {r : Region} {segment : Segment}

/-- The end of a region is as far from its beginning as its text is long. -/
theorem length_text (h : Holds whole r segment) : (r.text whole).length + r.start = r.stop := by
  have := h.start_le
  have := h.stop_le
  rw [text, Text.slice, List.length_drop, List.length_take]
  omega

/-- The region by itself has the tokens of its segment, at earlier places. -/
theorem exists_tokens (h : Holds whole r segment) :
    ∃ tokens, tokenize (r.text whole) = .ok tokens ∧ Segment.PipeFree tokens ∧
      segment = Segment.shift r.start ⟨tokens, (r.text whole).length⟩ := by
  have hscan : Token.scan (0 + r.start) r.start (r.text whole) = .ok segment.tokens :=
    (Token.scan_eq_ok_iff_isMunch rfl).mpr h.isMunch
  have hshift := Token.scan_shift r.start 0 0 (r.text whole)
  rw [Nat.zero_add] at hscan hshift
  obtain ⟨tokens, htokens, hmap⟩ := map_eq_ok_iff.mp (hshift.symm.trans hscan)
  refine ⟨tokens, mapError_eq_ok_iff.mpr (mapError_eq_ok_iff.mp htokens), ?_, ?_⟩
  · have hfree := h.pipeFree
    rw [Segment.pipeFree_iff, ← hmap, List.map_map] at hfree
    exact Segment.pipeFree_iff.mpr hfree
  · obtain ⟨_, stop⟩ := segment
    obtain rfl : stop = r.stop := h.stop_eq
    rw [Segment.shift, h.length_text, hmap]

/-- A text is what stands before a region, in the region and behind it. -/
theorem append_text_append (h : Holds whole r segment) :
    whole.take r.start ++ (r.text whole ++ whole.drop r.stop) = whole := by
  rw [text, Text.slice_append_drop h.start_le, List.take_append_drop]

/-- **A segment is read as its region is by itself**, or refused at a later position. -/
theorem compile_eq (h : Holds whole r segment) :
    segment.compile whole =
      (Pipeline.compile (r.text whole)).mapError (ParseError.shift r.start) := by
  obtain ⟨tokens, htokens, hfree, rfl⟩ := h.exists_tokens
  have hstop : ∀ t ∈ tokens, t.stop ≤ (r.text whole).length := by
    intro t ht
    have := Token.stop_le_of_scan (mapError_eq_ok_iff.mp htokens) t ht
    omega
  have hlength : (whole.take r.start).length = r.start := by
    have := h.start_le
    have := h.stop_le
    rw [List.length_take]
    omega
  have hright := Segment.compile_append_right (whole.take r.start)
    (r.text whole ++ whole.drop r.stop) ⟨tokens, (r.text whole).length⟩
  rw [hlength, h.append_text_append, Segment.compile_append_left hstop] at hright
  rw [hright, Pipeline.compile_of_tokenize htokens, Segment.all_of_pipeFree hfree,
    Pipeline.ofSegments_singleton]

end Holds

end Region

/-! ## Queries of one stage -/

/-- The text of a stage is quoted whole, without the blanks around it. -/
theorem Segment.excerpt_eq_trim {whole : Text} {first : Token} {rest : List Token}
    (h : Token.IsMunch whole 0 (first :: rest)) :
    excerpt whole first rest = whole.trim CodeUnit.isWhitespace := by
  obtain ⟨front, hfront⟩ := exists_eq_append_last first rest
  rw [excerpt]
  generalize rest.getLastD first = last at hfront ⊢
  have hlast : last ∈ first :: rest := hfront ▸ List.mem_append_right front List.mem_cons_self
  have hapart := h.apart
  rw [hfront, List.pairwise_append] at hapart
  -- The last token stops last, and starts no earlier than the first.
  have hstop : ∀ t ∈ first :: rest, t.stop ≤ last.stop := by
    intro t ht
    rw [hfront] at ht
    rcases List.mem_append.mp ht with ht | ht
    · have := hapart.2.2 t ht last List.mem_cons_self
      have := h.within last hlast
      omega
    · exact (List.mem_singleton.mp ht) ▸ le_rfl
  have hle : first.start ≤ last.stop := by
    have := h.within first List.mem_cons_self
    have := hstop first List.mem_cons_self
    omega
  have hsplit : whole.take first.start ++ whole.slice first.start last.stop ++
      whole.drop last.stop = whole := by
    rw [List.append_assoc, Text.slice_append_drop hle, List.take_append_drop]
  have hbefore : ∀ c ∈ whole.take first.start, c.isWhitespace = true :=
    fun c hc => CodeUnit.isWhitespace_of_isLayout (h.isLayout_before c hc)
  have hbehind : ∀ c ∈ whole.drop last.stop, c.isWhitespace = true :=
    fun c hc => CodeUnit.isWhitespace_of_isLayout (h.isLayout_behind (Nat.zero_le _) hstop c hc)
  rw [← Text.trim_append hbefore hbehind, hsplit]

namespace Pipeline

/-- **What is wrong with a query of one stage shows in it or at its end**, and all of it is
quoted. -/
theorem compile_error_of_pipeFree {text : Text} {tokens : List Token} {e : ParseError}
    (htokens : tokenize text = .ok tokens) (hfree : Segment.PipeFree tokens)
    (he : compile text = .error e) :
    e.position ≤ text.length ∧ e.segment = text.trim CodeUnit.isWhitespace := by
  have hmunch : Token.IsMunch text 0 tokens :=
    (Token.scan_eq_ok_iff_isMunch List.drop_zero).mp (mapError_eq_ok_iff.mp htokens)
  rw [compile_of_tokenize htokens, Segment.all_of_pipeFree hfree, ofSegments_singleton] at he
  cases tokens with
  | nil =>
    -- There is nothing but layout.
    obtain rfl := Except.error.inj he
    have hblank : ∀ c ∈ text, c.isWhitespace = true := fun c hc =>
      CodeUnit.isWhitespace_of_isLayout (hmunch.isLayout_behind le_rfl nofun c hc)
    have htrim := Text.trim_append (t := []) hblank (List.forall_mem_nil _)
    rw [List.append_nil, List.append_nil] at htrim
    exact ⟨le_rfl, htrim.symm⟩
  | cons first rest =>
    rw [Segment.compile_cons, mapError_eq_error_iff] at he
    obtain ⟨f, hf, rfl⟩ := he
    refine ⟨?_, Segment.excerpt_eq_trim hmunch⟩
    obtain ⟨t, ht, hposition⟩ := Segment.refuses_stages first rest f hf
    have := hmunch.within t ht
    dsimp only
    omega

/-- The first region that is no query. -/
theorem exists_holds_of_ofSegments {whole : Text} {regions : List Region}
    {segments : List Segment} {e : ParseError}
    (h : List.Forall₂ (Region.Holds whole) regions segments)
    (he : ofSegments whole segments = .error e) :
    ∃ before r after segment, regions = before ++ r :: after ∧ r.Holds whole segment ∧
      (∀ q ∈ before, ∃ p, compile (q.text whole) = .ok p) ∧ segment.compile whole = .error e := by
  induction h with
  | nil => contradiction
  | @cons r segment regions segments hr _ ih =>
    rw [ofSegments_cons, bind_eq_error_iff] at he
    rcases he with he | ⟨p, hp, he⟩
    · exact ⟨[], r, regions, segment, rfl, hr, List.forall_mem_nil _, he⟩
    · -- This one is read, so the error shows behind it.
      rcases bind_eq_error_iff.mp he with he | ⟨q, -, hq⟩
      · obtain ⟨before, s, after, segment', rfl, hs, hbefore, hcompile⟩ := ih he
        rw [hr.compile_eq, mapError_eq_ok_iff] at hp
        exact ⟨r :: before, s, after, segment', rfl, hs,
          List.forall_mem_cons.mpr ⟨⟨p, hp⟩, hbefore⟩, hcompile⟩
      · contradiction

/-- **An error shows in the first region of a query that is no query by itself.** It shows there or
at the end of the region, and in no other; all of the region is quoted; and the region by itself is
refused for the same cause, with the same text, at an earlier position. -/
theorem exists_region_of_compile_error {text : Text} {tokens : List Token} {e : ParseError}
    (htokens : tokenize text = .ok tokens) (he : compile text = .error e) :
    ∃ before r after, Region.all text.length tokens = before ++ r :: after ∧
      r.Contains e.position ∧ (∀ q ∈ before ++ after, ¬ q.Contains e.position) ∧
      (∃ lead tail, r.text text = lead ++ e.segment ++ tail ∧
        Text.Trims CodeUnit.whitespace lead e.segment tail) ∧
      (∀ q ∈ before, ∃ p, compile (q.text text) = .ok p) ∧
      compile (r.text text) = .error { e with position := e.position - r.start } := by
  have hmunch : Token.IsMunch text 0 tokens :=
    (Token.scan_eq_ok_iff_isMunch List.drop_zero).mp (mapError_eq_ok_iff.mp htokens)
  rw [compile_of_tokenize htokens] at he
  obtain ⟨before, r, after, segment, hall, hr, hbefore, hsegment⟩ :=
    exists_holds_of_ofSegments (Region.forall₂_between (Nat.zero_le _) hmunch) he
  rw [hr.compile_eq, mapError_eq_error_iff] at hsegment
  obtain ⟨e', he', rfl⟩ := hsegment
  obtain ⟨ts, hts, hfree, -⟩ := hr.exists_tokens
  obtain ⟨hposition, hquoted⟩ := compile_error_of_pipeFree hts hfree he'
  have hcontains : r.Contains (e'.shift r.start).position := by
    have := hr.length_text
    constructor
    · exact Nat.le_add_left _ _
    · show e'.position + r.start ≤ r.stop
      omega
  refine ⟨before, r, after, hall, hcontains, ?_,
    (Text.exists_trims_iff CodeUnit.isWhitespace_iff).mpr hquoted, hbefore, ?_⟩
  · -- Any other region stops before this one, or starts behind it.
    have hpairwise := (Region.pairwise_between hmunch).2
    rw [hall, List.pairwise_append, List.pairwise_cons] at hpairwise
    obtain ⟨-, ⟨hafter, -⟩, hcross⟩ := hpairwise
    rintro q hq ⟨hstart, hstop⟩
    have := hcontains.1
    have := hcontains.2
    rcases List.mem_append.mp hq with hq | hq
    · have := hcross q hq r List.mem_cons_self
      omega
    · have := hafter q hq
      omega
  · rw [he']
    dsimp only [ParseError.shift]
    rw [Nat.add_sub_cancel]

/-- The literal of the second stage has a pipe in it and is refused. The stage by itself is refused
for it, too, nine units earlier. -/
theorem exists_region_of_compile_error_literal :
    tokenize "@flat() | @attr(`a|b`)|" =
        .ok [⟨.operator "@flat", 0, 5⟩, ⟨.lparen, 5, 6⟩, ⟨.rparen, 6, 7⟩, ⟨.pipe, 8, 9⟩,
          ⟨.operator "@attr", 10, 15⟩, ⟨.lparen, 15, 16⟩, ⟨.literal "a|b", 16, 21⟩,
          ⟨.rparen, 21, 22⟩, ⟨.pipe, 22, 23⟩] ∧
      compile "@flat() | @attr(`a|b`)|" =
        .error
          { cause := .invalidLiteral .field "a|b", position := 16, segment := "@attr(`a|b`)" } ∧
      compile " @attr(`a|b`)" =
        .error
          { cause := .invalidLiteral .field "a|b", position := 7, segment := "@attr(`a|b`)" } := by
  have htokens : tokenize "@flat() | @attr(`a|b`)|" =
      .ok [⟨.operator "@flat", 0, 5⟩, ⟨.lparen, 5, 6⟩, ⟨.rparen, 6, 7⟩, ⟨.pipe, 8, 9⟩,
        ⟨.operator "@attr", 10, 15⟩, ⟨.lparen, 15, 16⟩, ⟨.literal "a|b", 16, 21⟩,
        ⟨.rparen, 21, 22⟩, ⟨.pipe, 22, 23⟩] := by decide +kernel
  have herror : compile "@flat() | @attr(`a|b`)|" =
      .error
        { cause := .invalidLiteral .field "a|b", position := 16, segment := "@attr(`a|b`)" } := by
    decide +kernel
  refine ⟨htokens, herror, ?_⟩
  obtain ⟨before, r, after, hall, hcontains, -, -, -, hregion⟩ :=
    exists_region_of_compile_error htokens herror
  have hregions : [⟨0, 8⟩, ⟨9, 22⟩, ⟨23, 23⟩] = before ++ r :: after := hall
  have hr : r ∈ before ++ r :: after := List.mem_append_right before List.mem_cons_self
  rw [← hregions] at hr
  rcases List.mem_cons.mp hr with rfl | hr
  · exact absurd hcontains.2 (by decide)
  rcases List.mem_cons.mp hr with rfl | hr
  · exact hregion
  · obtain rfl := List.mem_singleton.mp hr
    exact absurd hcontains.1 (by decide)

end Pipeline

end MarkupQuery
