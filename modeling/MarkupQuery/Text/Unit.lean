/-!
# Code units

Text is counted, cut and compared in UTF-16 code units, and every rule of the query language and
of the markup reader speaks of single units. This module names the units with a role and defines
the classes they fall into. All classes but `isWhitespace` hold ASCII units only.

## Main definitions

* `CodeUnit`: a UTF-16 code unit
* `CodeUnit.isLayout`, `CodeUnit.isSeparator`, `CodeUnit.isWhitespace`: three sets of blanks, each
  contained in the next up to the form feed
* `CodeUnit.isFieldUnit`, `CodeUnit.isTagUnit`, `CodeUnit.isNameUnit`,
  `CodeUnit.isAttributeUnit`: the units of which names are made
* `CodeUnit.lower`: lower case of the letters `A` to `Z`
-/

namespace MarkupQuery

/-- A UTF-16 code unit. A character beyond the basic plane is a pair of them, and a surrogate may
also stand alone. -/
abbrev CodeUnit := UInt16

namespace CodeUnit

/-! ## Units with a role

In a query a backtick encloses a literal, a pipe separates stages, and an at sign or a hash begins
the name of an operator. In markup an angle bracket opens a tag and another ends it, a bang or a
question mark makes it a declaration and a slash an end tag; an ampersand and a semicolon enclose a
reference, and a hash makes it a number. -/

abbrev tab : CodeUnit := 0x09
abbrev lineFeed : CodeUnit := 0x0A
abbrev formFeed : CodeUnit := 0x0C
abbrev carriageReturn : CodeUnit := 0x0D
abbrev space : CodeUnit := 0x20
abbrev bang : CodeUnit := 0x21
abbrev quote : CodeUnit := 0x22
abbrev hash : CodeUnit := 0x23
abbrev ampersand : CodeUnit := 0x26
abbrev apostrophe : CodeUnit := 0x27
abbrev lparen : CodeUnit := 0x28
abbrev rparen : CodeUnit := 0x29
abbrev comma : CodeUnit := 0x2C
abbrev minus : CodeUnit := 0x2D
abbrev dot : CodeUnit := 0x2E
abbrev slash : CodeUnit := 0x2F
abbrev zero : CodeUnit := 0x30
abbrev one : CodeUnit := 0x31
abbrev colon : CodeUnit := 0x3A
abbrev semicolon : CodeUnit := 0x3B
abbrev lessThan : CodeUnit := 0x3C
abbrev equals : CodeUnit := 0x3D
abbrev greaterThan : CodeUnit := 0x3E
abbrev question : CodeUnit := 0x3F
abbrev atSign : CodeUnit := 0x40
abbrev underscore : CodeUnit := 0x5F
abbrev backtick : CodeUnit := 0x60
abbrev pipe : CodeUnit := 0x7C
abbrev noBreakSpace : CodeUnit := 0xA0

/-! ## Blanks -/

/-- The blanks that lay out a query: space, tab, carriage return and line feed. -/
def isLayout (c : CodeUnit) : Bool :=
  c == space || c == tab || c == carriageReturn || c == lineFeed

/-- The blanks that separate class names: the layout and the form feed. -/
def isSeparator (c : CodeUnit) : Bool :=
  c.isLayout || c == formFeed

/-- The blanks of markup: the ASCII blanks, the Unicode space separators, the two line separators
and the byte order mark. -/
def isWhitespace (c : CodeUnit) : Bool :=
  (0x09 ≤ c && c ≤ 0x0D) || c == space || c == noBreakSpace || c == 0x1680 ||
    (0x2000 ≤ c && c ≤ 0x200A) || c == 0x2028 || c == 0x2029 || c == 0x202F || c == 0x205F ||
    c == 0x3000 || c == 0xFEFF

/-! ## Letters and digits -/

/-- The digits `0` to `9`. -/
def isDigit (c : CodeUnit) : Bool := 0x30 ≤ c && c ≤ 0x39

/-- The letters `A` to `Z`. -/
def isUpper (c : CodeUnit) : Bool := 0x41 ≤ c && c ≤ 0x5A

/-- The letters `a` to `z`. -/
def isLower (c : CodeUnit) : Bool := 0x61 ≤ c && c ≤ 0x7A

/-- The letters `A` to `Z` and `a` to `z`. -/
def isAlpha (c : CodeUnit) : Bool := c.isUpper || c.isLower

/-- The digits of base sixteen, in either case. -/
def isHexDigit (c : CodeUnit) : Bool :=
  c.isDigit || (0x41 ≤ c && c ≤ 0x46) || (0x61 ≤ c && c ≤ 0x66)

/-- The value of a digit of base ten or sixteen; of any other unit, some number. -/
def digitValue (c : CodeUnit) : Nat :=
  if c.isDigit then c.toNat - 0x30 else if c.isUpper then c.toNat - 0x37 else c.toNat - 0x57

/-- The digit that writes `d`, for `d` below ten. -/
def ofDigit (d : Nat) : CodeUnit := UInt16.ofNat (0x30 + d)

/-- Lower case of the letters `A` to `Z`; every other unit stays. -/
def lower (c : CodeUnit) : CodeUnit := if c.isUpper then c + 0x20 else c

/-! ## The units of names -/

/-- The units of a tag in a path: letters, low line and minus. -/
def isTagUnit (c : CodeUnit) : Bool := c.isAlpha || c == underscore || c == minus

/-- The units of a field, an attribute value, an identifier or a class in a query: letters,
digits, low line and minus. -/
def isFieldUnit (c : CodeUnit) : Bool := c.isTagUnit || c.isDigit

/-- The units after the first of a tag name in markup: letters, digits, colon, low line and
minus. -/
def isNameUnit (c : CodeUnit) : Bool := c.isFieldUnit || c == colon

/-- The units of an attribute name in markup: those of a tag name, the at sign and the full
stop. -/
def isAttributeUnit (c : CodeUnit) : Bool := c.isNameUnit || c == atSign || c == dot

end CodeUnit

end MarkupQuery
