import MarkupQuery.Proofs.Result
import MarkupQuery.Proofs.Text.Alphabet
import MarkupQuery.Pipeline.Token

/-!
# Tokens as long as can be

The lexemes of a query are told apart by what they are made of and by what follows them: a name
takes all the letters there are, and a bare run goes on up to a delimiter. Tokens of this kind that
leave out nothing but layout are the maximal munch of a text. The description speaks of the places
of tokens in a text and not of reading it. There is one such list at most, and scanning finds it.

## Main definitions

* `Lexeme.StandsBefore`: what a lexeme is made of, and what follows it
* `Token.IsMunch`: the tokens of a text from a position on

## Main results

* `Lexeme.read_eq_some_iff`: the lexeme that is read is the one that stands there
* `Token.scan_eq_ok_iff_isMunch`: scanning finds the maximal munch
* `tokenize_eq_ok_iff_isMunch`: which is unique
-/

namespace MarkupQuery

/-! ## Lexemes in a text -/

namespace Lexeme

/-- The units that end a bare run: the layout, the punctuation marks and the backtick. -/
def delimiters : Text := CodeUnit.layout ++ "(),|`"

/-- What a lexeme is made of, when `after` follows it. -/
inductive StandsBefore (after : Text) : Lexeme → Prop
  /-- No backtick is in a literal. -/
  | literal {content : Text} (hcontent : ('`' : CodeUnit) ∉ content) :
      StandsBefore after (.literal content)
  /-- A sign and all the letters behind it, at least one. -/
  | operator {sign : CodeUnit} {letters : Text}
      (hsign : sign = '@' ∨ sign = '#') (hne : letters ≠ [])
      (hletters : ∀ c ∈ letters, c ∈ CodeUnit.letters)
      (hstop : ∀ c ∈ after.head?, c ∉ CodeUnit.letters) :
      StandsBefore after (.operator (sign :: letters))
  /-- All the units up to a delimiter, unless they begin like an operator. -/
  | bare {content : Text} (hne : content ≠ []) (hplain : ∀ c ∈ content, c ∉ delimiters)
      (hsign : ∀ sign letter rest, content = sign :: letter :: rest →
        sign = '@' ∨ sign = '#' → letter ∉ CodeUnit.letters)
      (hstop : ∀ c ∈ after.head?, c ∈ delimiters) :
      StandsBefore after (.bare content)
  | lparen : StandsBefore after .lparen
  | rparen : StandsBefore after .rparen
  | comma : StandsBefore after .comma
  | pipe : StandsBefore after .pipe

variable {c : CodeUnit} {rest after : Text} {l : Lexeme}

theorem isSome_punctuation?_iff :
    (punctuation? c).isSome = true ↔
      c = CodeUnit.lparen ∨ c = CodeUnit.rparen ∨ c = CodeUnit.comma ∨ c = CodeUnit.pipe := by
  simp only [punctuation?]
  repeat' split
  all_goals simp_all

theorem isDelimiter_iff : isDelimiter c = true ↔ c ∈ delimiters := by
  have hmarks : ("(),|`" : Text) = [CodeUnit.lparen, CodeUnit.rparen, CodeUnit.comma,
      CodeUnit.pipe, CodeUnit.backtick] := by decide
  simp only [isDelimiter, CodeUnit.isLayout_iff, delimiters, hmarks, Bool.or_eq_true, beq_iff_eq,
    isSome_punctuation?_iff, List.mem_append, List.mem_cons, List.not_mem_nil, or_false, or_assoc]

theorem isDelimiter_eq_false_iff : isDelimiter c = false ↔ c ∉ delimiters := by
  rw [← isDelimiter_iff, Bool.not_eq_true]

/-- A run without delimiters goes on until one follows. -/
theorem stopsAt_delimiter_iff {t : Text} :
    Text.StopsAt (!isDelimiter ·) t ↔ ∀ c ∈ t.head?, c ∈ delimiters := by
  simp only [Text.StopsAt, Bool.not_eq_false', isDelimiter_iff]

/-- No letter is a delimiter. -/
theorem notMem_letters_of_mem_delimiters (h : c ∈ delimiters) : c ∉ CodeUnit.letters := by
  have hall : (delimiters.all fun d => !d.isAlpha) = true := by decide
  rw [← CodeUnit.isAlpha_iff]
  simpa using List.all_eq_true.mp hall c h

/-- An operator begins with a sign and a letter. -/
theorem beginsOperator_iff :
    beginsOperator c rest = true ↔
      (c = CodeUnit.atSign ∨ c = CodeUnit.hash) ∧ ∃ d ∈ rest.head?, d ∈ CodeUnit.letters := by
  simp only [beginsOperator, Bool.and_eq_true, Bool.or_eq_true, beq_iff_eq, Option.any_eq_true,
    Option.mem_def, CodeUnit.isAlpha_iff]

/-- A run of letters goes on until another unit follows. -/
theorem stopsAt_isAlpha_iff {t : Text} :
    Text.StopsAt CodeUnit.isAlpha t ↔ ∀ c ∈ t.head?, c ∉ CodeUnit.letters := by
  simp only [Text.StopsAt, ← CodeUnit.isAlpha_iff, Bool.not_eq_true]

/-- A lexeme begins with a unit that is no layout. -/
theorem StandsBefore.isLayout_eq_false (h : l.StandsBefore after)
    (hspelling : l.spelling = c :: rest) : c.isLayout = false := by
  cases h with
  | literal hcontent =>
    obtain ⟨rfl, -⟩ := List.cons.inj hspelling
    decide
  | operator hsign hne hletters hstop =>
    obtain ⟨rfl, -⟩ := List.cons.inj hspelling
    rcases hsign with rfl | rfl <;> decide
  | @bare content hne hplain hsign hstop =>
    obtain rfl : content = c :: rest := hspelling
    have hc := isDelimiter_eq_false_iff.mpr (hplain c List.mem_cons_self)
    simp only [isDelimiter, Bool.or_eq_false_iff] at hc
    exact hc.1.1
  | lparen | rparen | comma | pipe =>
    obtain ⟨rfl, -⟩ := List.cons.inj hspelling
    decide

theorem StandsBefore.spelling_ne_nil (h : l.StandsBefore after) : l.spelling ≠ [] := by
  cases h with
  | literal hcontent => exact List.cons_ne_nil _ _
  | operator hsign hne hletters hstop => exact List.cons_ne_nil _ _
  | bare hne hplain hsign hstop => exact hne
  | lparen | rparen | comma | pipe => exact List.cons_ne_nil _ _

/-- A punctuation mark stands in front of anything. -/
theorem standsBefore_of_punctuation? (h : punctuation? c = some l) : l.StandsBefore after := by
  simp only [punctuation?] at h
  split at h
  · exact Option.some.inj h ▸ .lparen
  split at h
  · exact Option.some.inj h ▸ .rparen
  split at h
  · exact Option.some.inj h ▸ .comma
  split at h
  · exact Option.some.inj h ▸ .pipe
  · contradiction

/-- What is read stands there. -/
theorem standsBefore_of_read (hc : c.isLayout = false) (h : read c rest = some (l, after)) :
    l.StandsBefore after := by
  simp only [read] at h
  split at h
  · next mark hmark =>
    obtain ⟨rfl, rfl⟩ := Prod.mk.inj (Option.some.inj h)
    exact standsBefore_of_punctuation? hmark
  next hmark =>
  split at h
  · next hquote =>
    split at h
    · contradiction
    obtain ⟨rfl, rfl⟩ := Prod.mk.inj (Option.some.inj h)
    refine .literal fun hmem => ?_
    have := List.all_eq_true.mp List.all_takeWhile _ hmem
    simp at this
  next hquote =>
  split at h
  · next hoperator =>
    obtain ⟨rfl, rfl⟩ := Prod.mk.inj (Option.some.inj h)
    obtain ⟨hsign, d, hd, hletter⟩ := beginsOperator_iff.mp hoperator
    obtain ⟨more, rfl⟩ := List.head?_eq_some_iff.mp hd
    refine .operator hsign ?_ (fun e he => ?_)
      (stopsAt_isAlpha_iff.mp (Text.stopsAt_dropWhile CodeUnit.isAlpha _))
    · rw [List.takeWhile_cons_of_pos (CodeUnit.isAlpha_iff.mpr hletter)]
      exact List.cons_ne_nil _ _
    · exact CodeUnit.isAlpha_iff.mp (List.all_eq_true.mp List.all_takeWhile e he)
  next hoperator =>
  obtain ⟨rfl, rfl⟩ := Prod.mk.inj (Option.some.inj h)
  refine .bare (List.cons_ne_nil _ _) ?_ ?_
    (stopsAt_delimiter_iff.mp (Text.stopsAt_dropWhile (!isDelimiter ·) rest))
  · intro d hd
    rw [← isDelimiter_eq_false_iff]
    rcases List.mem_cons.mp hd with rfl | hd
    · simp [isDelimiter, hc, hmark, hquote]
    · simpa using List.all_eq_true.mp List.all_takeWhile _ hd
  · intro sign letter more hcontent hsign
    obtain ⟨rfl, htake⟩ := List.cons.inj hcontent
    -- The letter would be the first unit behind the sign in the text as well.
    have hsplit := List.takeWhile_append_dropWhile (p := (!isDelimiter ·)) (l := rest)
    rw [htake] at hsplit
    intro hletter
    refine hoperator (beginsOperator_iff.mpr ⟨hsign, letter, ?_, hletter⟩)
    rw [← hsplit]
    rfl

/-- What stands there is read. -/
theorem read_of_standsBefore (h : l.StandsBefore after) (heq : l.spelling ++ after = c :: rest) :
    read c rest = some (l, after) := by
  cases h with
  | lparen | rparen | comma | pipe =>
    obtain ⟨rfl, rfl⟩ := List.cons.inj heq
    rfl
  | @literal content hcontent =>
    obtain ⟨rfl, rfl⟩ : CodeUnit.backtick = c ∧ content ++ CodeUnit.backtick :: after = rest := by
      simpa [spelling, Text.enclosed] using heq
    have hrun : ∀ d ∈ content, (d != CodeUnit.backtick) = true := Text.bne_of_notMem hcontent
    have hstop : Text.StopsAt (· != CodeUnit.backtick) (CodeUnit.backtick :: after) :=
      Text.stopsAt_bne _ _
    have hpunctuation : punctuation? CodeUnit.backtick = none := by decide
    simp only [read, hpunctuation, if_true,
      Text.takeWhile_run hrun hstop, Text.dropWhile_run hrun hstop]
  | @operator sign letters hsign hne hletters hstop =>
    obtain ⟨rfl, rfl⟩ : sign = c ∧ letters ++ after = rest := List.cons.inj heq
    have hpunctuation : punctuation? sign = none := by rcases hsign with rfl | rfl <;> decide
    have hquote : sign ≠ CodeUnit.backtick := by rcases hsign with rfl | rfl <;> decide
    have hbegins : beginsOperator sign (letters ++ after) = true := by
      obtain ⟨d, letters, rfl⟩ := List.exists_cons_of_ne_nil hne
      exact beginsOperator_iff.mpr ⟨hsign, d, rfl, hletters d List.mem_cons_self⟩
    have hrun : ∀ d ∈ letters, d.isAlpha = true := fun d hd =>
      CodeUnit.isAlpha_iff.mpr (hletters d hd)
    have hstop := stopsAt_isAlpha_iff.mpr hstop
    simp only [read, hpunctuation, if_neg hquote, hbegins, if_true,
      Text.takeWhile_run hrun hstop, Text.dropWhile_run hrun hstop]
  | @bare content hne hplain hsign hstop =>
    obtain ⟨d, content, rfl⟩ := List.exists_cons_of_ne_nil hne
    obtain ⟨rfl, rfl⟩ : d = c ∧ content ++ after = rest := List.cons.inj heq
    have hd := isDelimiter_eq_false_iff.mpr (hplain d List.mem_cons_self)
    simp only [isDelimiter, Bool.or_eq_false_iff, Option.isSome_eq_false_iff,
      Option.isNone_iff_eq_none, beq_eq_false_iff_ne] at hd
    obtain ⟨⟨-, hpunctuation⟩, hquote⟩ := hd
    -- A sign by itself is followed by a delimiter, which is no letter.
    have hbegins : beginsOperator d (content ++ after) = false := by
      rw [← Bool.not_eq_true]
      intro hbegins
      obtain ⟨hd, letter, hhead, hletter⟩ := beginsOperator_iff.mp hbegins
      cases content with
      | nil => exact notMem_letters_of_mem_delimiters (hstop letter hhead) hletter
      | cons first content =>
        obtain rfl : first = letter := Option.some.inj hhead
        exact hsign d first content rfl hd hletter
    have hrun : ∀ e ∈ content, (!isDelimiter e) = true := by
      intro e he
      simpa using isDelimiter_eq_false_iff.mpr (hplain e (List.mem_cons_of_mem d he))
    have hstop := stopsAt_delimiter_iff.mpr hstop
    simp only [read, hpunctuation, if_neg hquote, hbegins, Bool.false_eq_true, if_false,
      Text.takeWhile_run hrun hstop, Text.dropWhile_run hrun hstop]

/-- What a lexeme stands before matters only as far as its first unit, and may begin with any
delimiter instead. -/
theorem StandsBefore.of_head {other : Text} (h : l.StandsBefore after)
    (hhead : ∀ c ∈ other.head?, c ∈ after.head? ∨ c ∈ delimiters) : l.StandsBefore other := by
  cases h with
  | literal hcontent => exact .literal hcontent
  | operator hsign hne hletters hstop =>
    refine .operator hsign hne hletters fun c hc => ?_
    rcases hhead c hc with hc | hc
    · exact hstop c hc
    · exact notMem_letters_of_mem_delimiters hc
  | bare hne hplain hsign hstop =>
    refine .bare hne hplain hsign fun c hc => ?_
    rcases hhead c hc with hc | hc
    · exact hstop c hc
    · exact hc
  | lparen => exact .lparen
  | rparen => exact .rparen
  | comma => exact .comma
  | pipe => exact .pipe

/-- A lexeme that stands before a text stands before the beginning of the text, too. -/
theorem StandsBefore.of_append {more : Text} (h : l.StandsBefore (after ++ more)) :
    l.StandsBefore after := by
  refine h.of_head fun c hc => .inl ?_
  cases after with
  | nil => contradiction
  | cons d after => exact hc

/-- **The lexeme that is read is the one that stands there**, in front of what is left. -/
theorem read_eq_some_iff (hc : c.isLayout = false) :
    read c rest = some (l, after) ↔ l.spelling ++ after = c :: rest ∧ l.StandsBefore after := by
  constructor
  · intro h
    exact ⟨spelling_append_of_read h, standsBefore_of_read hc h⟩
  · rintro ⟨heq, h⟩
    exact read_of_standsBefore h heq

end Lexeme

/-! ## Cutting at positions -/

namespace Text

/-- What stands from one position to another is followed by what stands behind the other. -/
theorem slice_append_drop {start stop : Nat} (h : start ≤ stop) (t : Text) :
    t.slice start stop ++ t.drop stop = t.drop start := by
  by_cases hstop : stop ≤ t.length
  · have hstart : start ≤ (t.take stop).length := by
      rw [List.length_take]
      omega
    rw [slice, ← List.drop_append_of_le_length hstart, List.take_append_drop]
  · have hstop : t.length ≤ stop := by omega
    rw [slice, List.take_of_length_le hstop, List.drop_of_length_le hstop, List.append_nil]

/-- A text that begins at a position is cut out there, and what follows it is left. -/
theorem slice_of_drop_eq_append {t lead after : Text} {start : Nat}
    (h : t.drop start = lead ++ after) :
    t.slice start (start + lead.length) = lead ∧ t.drop (start + lead.length) = after := by
  constructor
  · rw [slice, List.drop_take, Nat.add_sub_cancel_left, h, List.take_left]
  · rw [← List.drop_drop, h, List.drop_left]

theorem take_of_drop_eq_append {t lead after : Text} {start : Nat}
    (h : t.drop start = lead ++ after) :
    t.take (start + lead.length) = t.take start ++ lead := by
  rw [List.take_add, h, List.take_left]

/-- What stands before a position is cut out of the text up to there. -/
theorem slice_take {stop n : Nat} (h : stop ≤ n) (t : Text) (start : Nat) :
    slice (t.take n) start stop = t.slice start stop := by
  rw [slice, slice, List.take_take, Nat.min_eq_left h]

/-- Parts of a text that meet make up one. -/
theorem slice_append_slice {start middle stop : Nat} (hstart : start ≤ middle)
    (hstop : middle ≤ stop) (t : Text) :
    t.slice start middle ++ t.slice middle stop = t.slice start stop := by
  rw [← slice_take hstop]
  exact slice_append_drop hstart (t.take stop)

end Text

/-! ## The tokens of a text -/

namespace Token

/-- A position lies within a token. -/
def Covers (t : Token) (i : Nat) : Prop := t.start ≤ i ∧ i < t.stop

/-- The tokens of a text from the position `start` on: they come in order and do not overlap, all
that they leave out is layout, and each is a lexeme that stands at its place. -/
structure IsMunch (whole : Text) (start : Nat) (tokens : List Token) : Prop where
  /-- A token stops before the next one starts. -/
  apart : tokens.Pairwise fun t u => t.stop ≤ u.start
  /-- A token has a unit, and lies in the text. -/
  within : ∀ t ∈ tokens, start ≤ t.start ∧ t.start < t.stop ∧ t.stop ≤ whole.length
  /-- All before, between and after the tokens is layout. -/
  layout : ∀ i c, start ≤ i → whole[i]? = some c → (∀ t ∈ tokens, ¬ t.Covers i) →
    c ∈ CodeUnit.layout
  /-- What stands at the place of a token is its lexeme. -/
  spelled : ∀ t ∈ tokens, whole.slice t.start t.stop = t.lexeme.spelling
  formed : ∀ t ∈ tokens, t.lexeme.StandsBefore (whole.drop t.stop)

namespace IsMunch

variable {whole : Text} {start : Nat} {t : Token} {tokens : List Token}

/-- What stands behind a token is what follows its lexeme. -/
theorem spelling_append (h : IsMunch whole start tokens) (ht : t ∈ tokens) :
    t.lexeme.spelling ++ whole.drop t.stop = whole.drop t.start := by
  rw [← h.spelled t ht]
  exact Text.slice_append_drop (Nat.le_of_lt (h.within t ht).2.1) whole

/-- A token is as long as its lexeme. -/
theorem stop_eq (h : IsMunch whole start tokens) (ht : t ∈ tokens) :
    t.stop = t.start + t.lexeme.spelling.length := by
  have hwithin := h.within t ht
  have hlength := congrArg List.length (h.spelling_append ht)
  rw [List.length_append, List.length_drop, List.length_drop] at hlength
  omega

/-- The tokens behind the first. -/
theorem tail (h : IsMunch whole start (t :: tokens)) : IsMunch whole t.stop tokens where
  apart := (List.pairwise_cons.mp h.apart).2
  within u hu :=
    ⟨(List.pairwise_cons.mp h.apart).1 u hu, (h.within u (List.mem_cons_of_mem t hu)).2⟩
  layout i c hi hc huncovered := by
    have := h.within t List.mem_cons_self
    refine h.layout i c (by omega) hc (List.forall_mem_cons.mpr ⟨?_, huncovered⟩)
    rintro ⟨-, hcovers⟩
    omega
  spelled u hu := h.spelled u (List.mem_cons_of_mem t hu)
  formed u hu := h.formed u (List.mem_cons_of_mem t hu)

/-- One more token in front. -/
theorem cons {l : Lexeme} {after : Text} (hdrop : whole.drop start = l.spelling ++ after)
    (hl : l.StandsBefore after) (h : IsMunch whole (start + l.spelling.length) tokens) :
    IsMunch whole start (⟨l, start, start + l.spelling.length⟩ :: tokens) := by
  obtain ⟨hslice, hafter⟩ := Text.slice_of_drop_eq_append hdrop
  have hpos := List.length_pos_iff.mpr hl.spelling_ne_nil
  have hlength : start + l.spelling.length ≤ whole.length := by
    have := congrArg List.length hdrop
    rw [List.length_drop, List.length_append] at this
    omega
  constructor
  case apart =>
    exact List.pairwise_cons.mpr ⟨fun u hu => (h.within u hu).1, h.apart⟩
  case within =>
    refine List.forall_mem_cons.mpr ⟨⟨Nat.le_refl _, Nat.lt_add_of_pos_right hpos, hlength⟩, ?_⟩
    intro u hu
    have := h.within u hu
    omega
  case layout =>
    intro i c hi hc huncovered
    obtain ⟨hfirst, hrest⟩ := List.forall_mem_cons.mp huncovered
    have hbehind : start + l.spelling.length ≤ i := Nat.le_of_not_lt fun hlt => hfirst ⟨hi, hlt⟩
    exact h.layout i c hbehind hc hrest
  case spelled => exact List.forall_mem_cons.mpr ⟨hslice, h.spelled⟩
  case formed => exact List.forall_mem_cons.mpr ⟨hafter ▸ hl, h.formed⟩

/-- Where no layout stands, the first token starts. -/
theorem exists_cons (h : IsMunch whole start tokens) {c : CodeUnit} (hc : whole[start]? = some c)
    (hlayout : c.isLayout = false) : ∃ t rest, tokens = t :: rest ∧ t.start = start := by
  -- Some token covers the position, for it is left out otherwise.
  have hcovered : ∃ t ∈ tokens, t.Covers start := by
    refine Classical.byContradiction fun huncovered => ?_
    have := h.layout start c (Nat.le_refl _) hc fun t ht hcovers => huncovered ⟨t, ht, hcovers⟩
    exact CodeUnit.isLayout_eq_false_iff.mp hlayout this
  obtain ⟨t, ht, hcovers, -⟩ := hcovered
  obtain ⟨u, rest, rfl⟩ := List.exists_cons_of_ne_nil (List.ne_nil_of_mem ht)
  have hu := h.within u List.mem_cons_self
  rcases List.mem_cons.mp ht with rfl | ht
  · exact ⟨t, rest, rfl, by omega⟩
  · -- A token behind the first starts later.
    have := (List.pairwise_cons.mp h.apart).1 t ht
    omega

/-- All before the first token is layout. -/
theorem isLayout_before (h : IsMunch whole 0 (t :: tokens)) :
    ∀ c ∈ whole.take t.start, c.isLayout = true := by
  intro c hc
  obtain ⟨i, hi⟩ := List.mem_iff_getElem?.mp hc
  rw [List.getElem?_take, Option.ite_none_right_eq_some] at hi
  refine CodeUnit.isLayout_iff.mpr (h.layout i c (Nat.zero_le i) hi.2 fun u hu hcovers => ?_)
  have := hcovers.1
  rcases List.mem_cons.mp hu with rfl | hu
  · omega
  · have := (List.pairwise_cons.mp h.apart).1 u hu
    have := h.within t List.mem_cons_self
    omega

/-- All behind the tokens is layout. -/
theorem isLayout_behind (h : IsMunch whole start tokens) {stop : Nat} (hstart : start ≤ stop)
    (hstop : ∀ t ∈ tokens, t.stop ≤ stop) : ∀ c ∈ whole.drop stop, c.isLayout = true := by
  intro c hc
  obtain ⟨i, hi⟩ := List.mem_iff_getElem?.mp hc
  rw [List.getElem?_drop] at hi
  refine CodeUnit.isLayout_iff.mpr (h.layout (stop + i) c (by omega) hi fun t ht hcovers => ?_)
  have := hstop t ht
  have := hcovers.2
  omega

/-- The tokens behind any token. -/
theorem behind {front rest : List Token} (h : IsMunch whole start (front ++ t :: rest)) :
    IsMunch whole t.stop rest := by
  induction front generalizing start with
  | nil => exact h.tail
  | cons u front ih => exact ih h.tail

/-- The tokens before a token are those of the text up to there. -/
theorem front {front rest : List Token} (h : IsMunch whole start (front ++ t :: rest)) :
    IsMunch (whole.take t.start) start front := by
  have ht := h.within t (List.mem_append_right front List.mem_cons_self)
  obtain ⟨hfront, hrest, hbefore⟩ := List.pairwise_append.mp h.apart
  have hstop : ∀ u ∈ front, u.stop ≤ t.start := fun u hu => hbefore u hu t List.mem_cons_self
  constructor
  case apart => exact hfront
  case within =>
    intro u hu
    have := h.within u (List.mem_append_left _ hu)
    have := hstop u hu
    rw [List.length_take]
    omega
  case layout =>
    intro i c hi hc huncovered
    rw [List.getElem?_take, Option.ite_none_right_eq_some] at hc
    obtain ⟨hlt, hc⟩ := hc
    refine h.layout i c hi hc fun u hu => ?_
    rcases List.mem_append.mp hu with hu | hu
    · exact huncovered u hu
    · -- The token and all behind it start later.
      rintro ⟨hle, -⟩
      rcases List.mem_cons.mp hu with rfl | hu
      · omega
      · have := (List.pairwise_cons.mp hrest).1 u hu
        omega
  case spelled =>
    intro u hu
    rw [Text.slice_take (hstop u hu)]
    exact h.spelled u (List.mem_append_left _ hu)
  case formed =>
    intro u hu
    -- What follows a token up to there is the beginning of all that follows it.
    have hformed := h.formed u (List.mem_append_left _ hu)
    rw [← Text.slice_append_drop (hstop u hu)] at hformed
    exact hformed.of_append

end IsMunch

/-- Behind a text there are no tokens. -/
theorem isMunch_nil_iff {whole : Text} {start : Nat} (h : whole.length ≤ start)
    {tokens : List Token} : IsMunch whole start tokens ↔ tokens = [] := by
  constructor
  · intro hmunch
    refine List.eq_nil_iff_forall_not_mem.mpr fun t ht => ?_
    have := hmunch.within t ht
    omega
  · rintro rfl
    refine ⟨.nil, nofun, ?_, nofun, nofun⟩
    intro i c hi hc
    have := (List.getElem?_eq_some_iff.mp hc).1
    omega

/-- Layout is left out. -/
theorem isMunch_layout_iff {whole : Text} {start : Nat} {c : CodeUnit}
    (hc : whole[start]? = some c) (hlayout : c.isLayout = true) {tokens : List Token} :
    IsMunch whole start tokens ↔ IsMunch whole (start + 1) tokens := by
  constructor
  · intro h
    refine ⟨h.apart, fun t ht => ⟨?_, (h.within t ht).2⟩, fun i d hi => h.layout i d (by omega),
      h.spelled, h.formed⟩
    -- A token that starts at the layout would begin with it.
    refine Nat.lt_of_le_of_ne (h.within t ht).1 fun hstart => ?_
    obtain ⟨d, rest, hspelling⟩ := List.exists_cons_of_ne_nil (h.formed t ht).spelling_ne_nil
    have hd := (h.formed t ht).isLayout_eq_false hspelling
    have happend := h.spelling_append ht
    rw [hspelling, ← hstart] at happend
    have hhead : whole[start]? = some d := by rw [← List.head?_drop, ← happend]; rfl
    obtain rfl : c = d := Option.some.inj (hc.symm.trans hhead)
    rw [hlayout] at hd
    contradiction
  · intro h
    refine ⟨h.apart, fun t ht => ?_, fun i d hi hd => ?_, h.spelled, h.formed⟩
    · have := h.within t ht
      omega
    · rcases Nat.eq_or_lt_of_le hi with rfl | hlt
      · obtain rfl : c = d := Option.some.inj (hc.symm.trans hd)
        exact fun _ => CodeUnit.isLayout_iff.mp hlayout
      · exact h.layout i d hlt hd

/-- Where a lexeme stands, it is the first token. -/
theorem isMunch_cons_iff {whole : Text} {start : Nat} {c : CodeUnit} {rest after : Text}
    {l : Lexeme} (hdrop : whole.drop start = c :: rest) (hlayout : c.isLayout = false)
    (hread : Lexeme.read c rest = some (l, after)) {tokens : List Token} :
    IsMunch whole start tokens ↔
      ∃ more, IsMunch whole (start + l.spelling.length) more ∧
        ⟨l, start, start + l.spelling.length⟩ :: more = tokens := by
  constructor
  · intro h
    have hc : whole[start]? = some c := by rw [← List.head?_drop, hdrop]; rfl
    obtain ⟨⟨l', start, stop⟩, more, rfl, rfl⟩ := h.exists_cons hc hlayout
    have happend := h.spelling_append List.mem_cons_self
    have hformed := h.formed _ List.mem_cons_self
    -- Only one lexeme stands at a place, so the token is the one that is read.
    have hread' := (Lexeme.read_eq_some_iff hlayout).mpr ⟨happend.trans hdrop, hformed⟩
    obtain ⟨rfl, -⟩ := Prod.mk.inj (Option.some.inj (hread.symm.trans hread'))
    obtain rfl : stop = start + l.spelling.length := h.stop_eq List.mem_cons_self
    exact ⟨more, h.tail, rfl⟩
  · rintro ⟨more, h, rfl⟩
    obtain ⟨happend, hl⟩ := (Lexeme.read_eq_some_iff hlayout).mp hread
    exact h.cons (hdrop.trans happend.symm) hl

/-- **Scanning finds the maximal munch** of what stands at a position of a text. -/
theorem scan_eq_ok_iff_isMunch {whole t : Text} {stage start : Nat} (ht : whole.drop start = t)
    {tokens : List Token} : scan stage start t = .ok tokens ↔ IsMunch whole start tokens := by
  -- The scan goes on in what is left of the text, and the description in the whole text.
  fun_induction scan stage start t generalizing tokens with
  | case1 stage start =>
    rw [isMunch_nil_iff (List.drop_eq_nil_iff.mp ht), Except.ok.injEq, eq_comm]
  | case2 stage start c rest hc ih =>
    have hhead : whole[start]? = some c := by rw [← List.head?_drop, ht]; rfl
    have hrest : whole.drop (start + 1) = rest := by rw [← List.tail_drop, ht]; rfl
    rw [ih hrest, isMunch_layout_iff hhead hc]
  | case3 stage start c rest hc hread =>
    -- No lexeme stands at an open backtick, and it is no layout either.
    refine iff_of_false nofun fun h => ?_
    have hlayout : c.isLayout = false := by simpa using hc
    have hhead : whole[start]? = some c := by rw [← List.head?_drop, ht]; rfl
    obtain ⟨t, more, rfl, rfl⟩ := h.exists_cons hhead hlayout
    have happend := (h.spelling_append List.mem_cons_self).trans ht
    rw [Lexeme.read_of_standsBefore (h.formed t List.mem_cons_self) happend] at hread
    contradiction
  | case4 stage start c rest hc lexeme after hread stop stage' =>
    rename_i ih
    have hlayout : c.isLayout = false := by simpa using hc
    have hafter : whole.drop stop = after :=
      (Text.slice_of_drop_eq_append (ht.trans (Lexeme.spelling_append_of_read hread).symm)).2
    rw [map_eq_ok_iff, isMunch_cons_iff ht hlayout hread]
    exact exists_congr fun more => and_congr_left' (ih hafter)

end Token

/-- **Tokens are the maximal munch of a text, and the only one.** -/
theorem tokenize_eq_ok_iff_isMunch (text : Text) (tokens : List Token) :
    tokenize text = .ok tokens ↔
      Token.IsMunch text 0 tokens ∧ ∀ others, Token.IsMunch text 0 others → others = tokens := by
  have hscan : ∀ {ts}, Token.scan 0 0 text = .ok ts ↔ Token.IsMunch text 0 ts :=
    Token.scan_eq_ok_iff_isMunch List.drop_zero
  rw [tokenize, mapError_eq_ok_iff]
  constructor
  · intro h
    refine ⟨hscan.mp h, fun others hothers => ?_⟩
    exact Except.ok.inj ((hscan.mpr hothers).symm.trans h)
  · rintro ⟨h, -⟩
    exact hscan.mpr h

end MarkupQuery
