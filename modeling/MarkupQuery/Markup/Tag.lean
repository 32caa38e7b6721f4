import MarkupQuery.Markup.Node
import MarkupQuery.Markup.Reference

/-!
# Tags

What stands between the angle brackets of a tag is a name, attributes and perhaps a slash. Reading
is lenient: anything that is no attribute is passed over, and of two attributes with one name the
first counts.

## Main definitions

* `Tag.inside?`: the inside of a tag and what follows it
* `StartTag.read?`: the start tag with a given inside
* `EndTag.name?`: the name in an end tag
* `EndTag.read?`: an end tag for a given name at the start of a text
-/

namespace MarkupQuery

/-! ## Where a tag ends -/

namespace Tag

/-- The units up to the first `>` outside quotes, and what follows it. There is none when a `<`
outside quotes or the end of the text comes first. The first argument is the quote inside which the
text begins, if it does. -/
def upToEnd? : Option CodeUnit → Text → Option (Text × Text)
  | _, [] => none
  | some mark, c :: rest =>
    (upToEnd? (if c = mark then none else some mark) rest).map fun (inside, after) =>
      (c :: inside, after)
  | none, c :: rest =>
    if c = CodeUnit.greaterThan then some ([], rest)
    else if c = CodeUnit.lessThan then none
    else
      (upToEnd? (if c = CodeUnit.quote ∨ c = CodeUnit.apostrophe then some c else none) rest).map
        fun (inside, after) => (c :: inside, after)

/-- The inside of a tag whose `<` is read, of one unit or more, and what follows its `>`. -/
def inside? (t : Text) : Option (Text × Text) :=
  (upToEnd? none t).filter fun (inside, _) => !inside.isEmpty

theorem eq_append_of_upToEnd? {within : Option CodeUnit} {t inside after : Text}
    (h : upToEnd? within t = some (inside, after)) :
    t = inside ++ CodeUnit.greaterThan :: after := by
  induction t generalizing within inside with
  | nil => simp [upToEnd?] at h
  | cons c rest ih =>
    cases within with
    | some mark =>
      rw [upToEnd?] at h
      simp only [Option.map_eq_some_iff] at h
      obtain ⟨⟨inside', after'⟩, h, heq⟩ := h
      obtain ⟨rfl, rfl⟩ : c :: inside' = inside ∧ after' = after := by simpa using heq
      simp [ih h]
    | none =>
      rw [upToEnd?] at h
      split at h
      · next hc =>
        obtain ⟨rfl, rfl⟩ : [] = inside ∧ rest = after := by simpa using h
        simp [hc]
      · split at h
        · exact absurd h (by simp)
        · simp only [Option.map_eq_some_iff] at h
          obtain ⟨⟨inside', after'⟩, h, heq⟩ := h
          obtain ⟨rfl, rfl⟩ : c :: inside' = inside ∧ after' = after := by simpa using heq
          simp [ih h]

/-- The inside of a tag, the `>` and what follows make up the text. -/
theorem eq_append_of_inside? {t inside after : Text} (h : inside? t = some (inside, after)) :
    t = inside ++ CodeUnit.greaterThan :: after := by
  simp only [inside?, Option.filter_eq_some_iff] at h
  exact eq_append_of_upToEnd? h.1

/-- Whether a text is the name of a tag: a letter, and name units after it. -/
def isName : Text → Bool
  | [] => false
  | c :: rest => c.isAlpha && rest.all CodeUnit.isNameUnit

end Tag

/-! ## Attributes -/

namespace Attribute

/-- The units of an attribute value without quotes: all but blanks, quotes, backticks, `=`, `<`
and `>`. -/
def isPlainUnit (c : CodeUnit) : Bool :=
  !(c.isWhitespace || c == CodeUnit.quote || c == CodeUnit.apostrophe || c == CodeUnit.backtick ||
    c == CodeUnit.equals || c == CodeUnit.lessThan || c == CodeUnit.greaterThan)

/-- The text up to a closing quote, and what follows it. -/
def quoted? (mark : CodeUnit) (t : Text) : Option (Text × Text) :=
  match t.dropWhile (· != mark) with
  | [] => none
  | _ :: after => some (t.takeWhile (· != mark), after)

/-- The value after an equals sign and the blanks that follow it: a text in quotes, or a run of
plain units. -/
def valueText? : Text → Option (Text × Text)
  | [] => none
  | c :: rest =>
    if c = CodeUnit.quote ∨ c = CodeUnit.apostrophe then quoted? c rest
    else if isPlainUnit c then
      some (c :: rest.takeWhile isPlainUnit, rest.dropWhile isPlainUnit)
    else none

/-- The value after the name of an attribute, with blanks allowed on both sides of the equals
sign. -/
def value? (t : Text) : Option (Text × Text) :=
  match t.dropWhile CodeUnit.isWhitespace with
  | [] => none
  | c :: rest =>
    if c = CodeUnit.equals then valueText? (rest.dropWhile CodeUnit.isWhitespace) else none

/-- The value after the name of an attribute, and what follows it; an attribute without a value
has the empty one, and is read up to the end of its name. -/
def valueOrEmpty (t : Text) : Text × Text := (value? t).getD ([], t)

theorem length_le_of_quoted? {mark : CodeUnit} {t value after : Text}
    (h : quoted? mark t = some (value, after)) : after.length ≤ t.length := by
  have hle := Text.length_dropWhile_le (· != mark) t
  rw [quoted?] at h
  split at h
  · exact absurd h (by simp)
  · next _ rest hdrop =>
    obtain ⟨-, rfl⟩ : _ = value ∧ rest = after := by simpa using h
    rw [hdrop, List.length_cons] at hle
    omega

theorem length_le_of_valueText? {t value after : Text} (h : valueText? t = some (value, after)) :
    after.length ≤ t.length := by
  cases t with
  | nil => simp [valueText?] at h
  | cons c rest =>
    rw [valueText?] at h
    split at h
    · exact Nat.le_succ_of_le (length_le_of_quoted? h)
    · split at h
      · obtain ⟨-, rfl⟩ : _ = value ∧ rest.dropWhile isPlainUnit = after := by simpa using h
        exact Nat.le_succ_of_le (Text.length_dropWhile_le _ _)
      · exact absurd h (by simp)

theorem length_valueOrEmpty (t : Text) : (valueOrEmpty t).2.length ≤ t.length := by
  have hle := Text.length_dropWhile_le CodeUnit.isWhitespace t
  rw [valueOrEmpty, value?]
  split
  · simp
  · next c rest hdrop =>
    rw [hdrop, List.length_cons] at hle
    split
    · cases hvalue : valueText? (rest.dropWhile CodeUnit.isWhitespace) with
      | none => simp
      | some found =>
        have h₁ := length_le_of_valueText? hvalue
        have h₂ := Text.length_dropWhile_le CodeUnit.isWhitespace rest
        simp only [Option.getD_some]
        omega
    · simp

/-- The attributes written in a text, in order: a run of attribute units is a name, in lower case,
and what stands between attributes is passed over. References in values are decoded. -/
def scan : Text → List Attribute
  | [] => []
  | c :: rest =>
    if c.isAttributeUnit then
      let name := c :: rest.takeWhile CodeUnit.isAttributeUnit
      let found := valueOrEmpty (rest.dropWhile CodeUnit.isAttributeUnit)
      ⟨Text.lower name, Text.decoded found.1⟩ :: scan found.2
    else scan rest
termination_by t => t.length
decreasing_by
  · have h₁ := length_valueOrEmpty (rest.dropWhile CodeUnit.isAttributeUnit)
    have h₂ := Text.length_dropWhile_le CodeUnit.isAttributeUnit rest
    simp only [List.length_cons]
    omega
  · simp

end Attribute

/-! ## Start tags -/

/-- A start tag. -/
structure StartTag where
  /-- The name, in lower case. -/
  name : Text
  /-- The attributes, each name once and in their fixed order. -/
  attributes : List Attribute
  /-- Whether a slash ends the tag, so that its element is closed at once. -/
  selfClosing : Bool
  deriving DecidableEq, Repr

namespace StartTag

/-- Whether what follows the name ends with a slash that is no part of a value: but for blanks it
is the last unit, and a blank or a quote, if anything, comes before it. -/
def endsWithSlash (t : Text) : Bool :=
  match t.reverse.dropWhile CodeUnit.isWhitespace with
  | [] => false
  | c :: before =>
    c == CodeUnit.slash &&
      before.head?.all fun d => d.isWhitespace || d == CodeUnit.quote || d == CodeUnit.apostrophe

/-- The start tag with the given inside; none when it does not begin with a letter. -/
def read? (inside : Text) : Option StartTag :=
  if inside.head?.any CodeUnit.isAlpha then
    let rest := inside.dropWhile CodeUnit.isNameUnit
    some
      { name := Text.lower (inside.takeWhile CodeUnit.isNameUnit)
        attributes := Attribute.arrange (Attribute.keepFirst (Attribute.scan rest))
        selfClosing := endsWithSlash rest }
  else none

/-- Whether the element of the tag is closed at once. -/
def isClosed (tag : StartTag) : Bool := tag.selfClosing || Tag.isVoid tag.name

/-- Whether a body that is not markup follows the tag. -/
def opensRaw (tag : StartTag) : Bool := !tag.isClosed && Tag.isRaw tag.name

end StartTag

/-! ## End tags -/

namespace EndTag

/-- The name in an end tag, given what follows its slash: blanks around the name are dropped, and
anything else makes the tag nameless. -/
def name? (t : Text) : Option Text :=
  let name := t.trim CodeUnit.isWhitespace
  if Tag.isName name then some name.lower else none

/-- The end tag for `name`, in letters of either case, at the start of a text, and what follows
it. -/
def read? (name : Text) : Text → Option (Text × Text)
  | c :: d :: rest =>
    if c = CodeUnit.lessThan ∧ d = CodeUnit.slash then
      let word := rest.dropWhile CodeUnit.isWhitespace
      let after := word.drop name.length
      if Text.lower (word.take name.length) = name then
        match after.dropWhile CodeUnit.isWhitespace with
        | [] => none
        | e :: remainder =>
          if e = CodeUnit.greaterThan then
            some (c :: d :: rest.takeWhile CodeUnit.isWhitespace ++ word.take name.length ++
              after.takeWhile CodeUnit.isWhitespace ++ [e], remainder)
          else none
      else none
    else none
  | _ => none

/-- An end tag and what follows it make up the text. -/
theorem append_of_read? {name t tag after : Text} (h : read? name t = some (tag, after)) :
    tag ++ after = t := by
  match t with
  | [] => simp [read?] at h
  | [_] => simp [read?] at h
  | c :: d :: rest =>
    rw [read?] at h
    split at h
    · simp only at h
      split at h
      · split at h
        · exact absurd h (by simp)
        · next e remainder hdrop =>
          split at h
          · obtain ⟨rfl, rfl⟩ : _ = tag ∧ remainder = after := by simpa using h
            -- Blanks, the name, blanks and the `>` are cut off the text one after the other.
            have h₁ := List.takeWhile_append_dropWhile (p := CodeUnit.isWhitespace) (l := rest)
            have h₂ := List.take_append_drop name.length (rest.dropWhile CodeUnit.isWhitespace)
            have h₃ := List.takeWhile_append_dropWhile (p := CodeUnit.isWhitespace)
              (l := (rest.dropWhile CodeUnit.isWhitespace).drop name.length)
            rw [hdrop] at h₃
            simp only [List.cons_append, List.append_assoc, List.nil_append]
            rw [h₃, h₂, h₁]
          · exact absurd h (by simp)
      · exact absurd h (by simp)
    · exact absurd h (by simp)

end EndTag

end MarkupQuery
