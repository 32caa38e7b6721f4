import MarkupQuery.Markup.Tag

/-!
# Events

Markup is cut from left to right into events: comments and declarations, texts, start and end
tags, and elements whose body is not markup. Every text can be cut: a `<` that opens nothing is
text.

## Main definitions

* `Event`, `Event.source`: the events and the markup they are made of
* `Event.read`: the event at the start of a text
* `Event.scan`: the events of a text

## Main results

* `Event.source_append_read`: an event and what follows it make up the text
* `Event.flatMap_source_scan`: the events of a text make it up
-/

namespace MarkupQuery

/-- A piece of markup. -/
inductive Event where
  /-- A comment, a declaration or a processing instruction. -/
  | ignored (written : Text)
  /-- A text, and anything that looks like a tag but is none. -/
  | text (written : Text)
  /-- An end tag, with its name unless it is malformed. -/
  | endTag (written : Text) (name : Option Text)
  /-- A start tag. -/
  | startTag (written : Text) (tag : StartTag)
  /-- A start tag, the body up to its end tag, and the end tag, which is empty when there is
  none. -/
  | raw (written : Text) (tag : StartTag) (body closing : Text)
  deriving DecidableEq, Repr

namespace Event

/-- The markup that an event is made of. -/
def source : Event → Text
  | ignored written => written
  | text written => written
  | endTag written _ => written
  | startTag written _ => written
  | raw written _ body closing => written ++ body ++ closing

/-! ## One event -/

/-- The rest of a comment whose `<` is read, and what follows it. -/
def comment? (t : Text) : Option (Text × Text) := do
  let body ← ("!--" : Text).isPrefixOf? t
  let (inner, after) ← Text.breakOn "-->" body
  return ("!--" ++ inner ++ "-->", after)

/-- The body of an element that is not markup, its end tag, and what follows; without an end tag
the body goes on to the end of the text. -/
def rawBody (name t : Text) : Text × Text × Text :=
  (t.search (EndTag.read? name)).getD (t, [], [])

/-- The event of a start tag, and what follows it. -/
def ofStartTag (written : Text) (tag : StartTag) (after : Text) : Event × Text :=
  if tag.opensRaw then
    let found := rawBody tag.name after
    (raw written tag found.1 found.2.1, found.2.2)
  else (startTag written tag, after)

/-- The event of a tag with the given inside, and what follows it. -/
def ofTag (inside after : Text) : Event × Text :=
  let written := CodeUnit.lessThan :: inside ++ [CodeUnit.greaterThan]
  match inside with
  | [] => (text written, after)
  | c :: rest =>
    if c = CodeUnit.bang ∨ c = CodeUnit.question then (ignored written, after)
    else if c = CodeUnit.slash then (endTag written (EndTag.name? rest), after)
    else
      match StartTag.read? (c :: rest) with
      | some tag => ofStartTag written tag after
      | none => (text written, after)

/-- The event at the start of the text `c :: rest`, and what follows it. -/
def read (c : CodeUnit) (rest : Text) : Event × Text :=
  if c = CodeUnit.lessThan then
    match comment? rest with
    | some (inner, after) => (ignored (c :: inner), after)
    | none =>
      match Tag.inside? rest with
      | some (inside, after) => ofTag inside after
      | none => (text [c], rest)
  else
    (text (c :: rest.takeWhile (· != CodeUnit.lessThan)),
      rest.dropWhile (· != CodeUnit.lessThan))

/-! ## The events make up the text -/

theorem append_of_comment? {t inner after : Text} (h : comment? t = some (inner, after)) :
    inner ++ after = t := by
  simp only [comment?, Option.bind_eq_bind, Option.bind_eq_some_iff] at h
  obtain ⟨body, hbody, ⟨inner', after'⟩, hbreak, heq⟩ := h
  obtain ⟨rfl, rfl⟩ : _ = inner ∧ after' = after := by simpa using heq
  rw [← Text.append_of_isPrefixOf? hbody, Text.eq_append_of_breakOn hbreak]
  simp only [List.append_assoc]

theorem append_rawBody (name t : Text) :
    (rawBody name t).1 ++ ((rawBody name t).2.1 ++ (rawBody name t).2.2) = t := by
  rw [rawBody]
  cases h : t.search (EndTag.read? name) with
  | none => simp
  | some found =>
    obtain ⟨body, closing, after⟩ := found
    obtain ⟨rest, rfl, hrest⟩ := Text.eq_append_of_search h
    simp [EndTag.append_of_read? hrest]

theorem source_append_ofStartTag (written : Text) (tag : StartTag) (after : Text) :
    (ofStartTag written tag after).1.source ++ (ofStartTag written tag after).2 =
      written ++ after := by
  rw [ofStartTag]
  split
  · simp [source, append_rawBody]
  · simp [source]

theorem source_append_ofTag (inside after : Text) :
    (ofTag inside after).1.source ++ (ofTag inside after).2 =
      CodeUnit.lessThan :: inside ++ CodeUnit.greaterThan :: after := by
  unfold ofTag
  split
  · simp [source]
  · split
    · simp [source]
    · split
      · simp [source]
      · split
        · simp [source_append_ofStartTag]
        · simp [source]

/-- An event and what follows it make up the text. -/
theorem source_append_read (c : CodeUnit) (rest : Text) :
    (read c rest).1.source ++ (read c rest).2 = c :: rest := by
  rw [read]
  split
  · next hc =>
    split
    · next h => simp [source, append_of_comment? h]
    · split
      · next h => rw [source_append_ofTag, Tag.eq_append_of_inside? h, hc, List.cons_append]
      · simp [source]
  · simp [source]

theorem source_ofStartTag_ne_nil {written : Text} (h : written ≠ []) (tag : StartTag)
    (after : Text) : (ofStartTag written tag after).1.source ≠ [] := by
  rw [ofStartTag]
  split
  · simp [source, h]
  · simp [source, h]

theorem source_ofTag_ne_nil (inside after : Text) : (ofTag inside after).1.source ≠ [] := by
  unfold ofTag
  split
  · simp [source]
  · split
    · simp [source]
    · split
      · simp [source]
      · split
        · exact source_ofStartTag_ne_nil (by simp) _ _
        · simp [source]

/-- No event is empty. -/
theorem source_read_ne_nil (c : CodeUnit) (rest : Text) : (read c rest).1.source ≠ [] := by
  rw [read]
  split
  · split
    · simp [source]
    · split
      · exact source_ofTag_ne_nil _ _
      · simp [source]
  · simp [source]

theorem length_read (c : CodeUnit) (rest : Text) : (read c rest).2.length ≤ rest.length := by
  have h₁ := congrArg List.length (source_append_read c rest)
  have h₂ := List.length_pos_iff.mpr (source_read_ne_nil c rest)
  simp only [List.length_append, List.length_cons] at h₁
  omega

/-! ## All events -/

/-- The events of a text. -/
def scan : Text → List Event
  | [] => []
  | c :: rest => (read c rest).1 :: scan (read c rest).2
termination_by t => t.length
decreasing_by
  have := length_read c rest
  simp only [List.length_cons]
  omega

/-- The events of a text make it up. -/
theorem flatMap_source_scan (t : Text) : (scan t).flatMap source = t := by
  fun_induction scan t with
  | case1 => rfl
  | case2 c rest ih => rw [List.flatMap_cons, ih, source_append_read]

end Event

end MarkupQuery
