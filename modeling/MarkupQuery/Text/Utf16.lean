import MarkupQuery.Text.Basic

/-!
# Characters and code units

A character is written as one code unit, or as a surrogate pair when it lies beyond the basic
plane. Character strings read as texts, and a text without an unpaired surrogate reads back as a
string.

## Main definitions

* `Text.ofCodePoint`: the code units that write a code point
* `Text.ofString`: the code units of a string
* `Text.toString?`: the string that a text writes, if there is one
-/

namespace MarkupQuery

namespace CodeUnit

/-- The first half of a surrogate pair. -/
def isHighSurrogate (c : CodeUnit) : Bool := 0xD800 ≤ c && c ≤ 0xDBFF

/-- The second half of a surrogate pair. -/
def isLowSurrogate (c : CodeUnit) : Bool := 0xDC00 ≤ c && c ≤ 0xDFFF

end CodeUnit

namespace Text

/-- The code units of a code point: itself in the basic plane, surrogates included, and a
surrogate pair beyond it. -/
def ofCodePoint (n : Nat) : Text :=
  if n < 0x10000 then [UInt16.ofNat n]
  else [UInt16.ofNat (0xD800 + (n - 0x10000) / 0x400),
    UInt16.ofNat (0xDC00 + (n - 0x10000) % 0x400)]

/-- The code units of a string. -/
def ofString (s : String) : Text := s.toList.flatMap fun c => ofCodePoint c.toNat

instance : Coe String Text := ⟨ofString⟩

/-- The characters that a text writes; none when a surrogate stands alone. -/
def toChars? : Text → Option (List Char)
  | [] => some []
  | high :: low :: rest =>
    if high.isHighSurrogate then
      if low.isLowSurrogate then
        (toChars? rest).map
          (Char.ofNat (0x10000 + (high.toNat - 0xD800) * 0x400 + (low.toNat - 0xDC00)) :: ·)
      else none
    else if high.isLowSurrogate then none
    else (toChars? (low :: rest)).map (Char.ofNat high.toNat :: ·)
  | [c] => if c.isHighSurrogate || c.isLowSurrogate then none else some [Char.ofNat c.toNat]

/-- The string that a text writes; none when a surrogate stands alone. -/
def toString? (t : Text) : Option String := t.toChars?.map String.ofList

end Text

end MarkupQuery
