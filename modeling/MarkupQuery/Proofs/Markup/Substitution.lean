import Mathlib.Data.List.Induction
import Mathlib.Data.Nat.Digits.Defs
import MarkupQuery.Proofs.Markup.Decoding
import MarkupQuery.Proofs.Text.Alphabet
import MarkupQuery.Proofs.Text.Unit

/-!
# Decoding as substitution

Decoding puts what each reference stands for in its place and leaves everything else. This says
what the references are and what they stand for without reading a text: a reference is a formed one
between an ampersand and a semicolon, and it stands for the character that it names or counts, or
for itself. A reference keeps its place in any text. Neither what comes before it nor what comes
after it can become part of it, and what is put in its place is not read again.

## Main definitions

* `Text.Encodes`: the code units of a code point
* `Reference.IsFormed`: a reference that is made of the right units
* `Reference.written`: a reference between its ampersand and its semicolon
* `Reference.Names`, `Reference.StandsFor`: the character of a reference, if there is one, and what
  is put in its place

## Main results

* `Text.encodes_iff`: every code point is written in exactly one way
* `Reference.read?_eq_some_iff`: exactly the formed references are read
* `Reference.standsFor_iff`: every formed reference is replaced by what it stands for
* `Text.decoded_substitutes`: a text is decoded around each of its references
-/

namespace MarkupQuery

open CodeUnit

/-! ## The code units of a code point -/

namespace Text

/-- The code units of a code point: one unit, which may be a surrogate, or two surrogates that make
a pair. -/
inductive Encodes : Text → Nat → Prop
  | single (c : CodeUnit) : Encodes [c] c.toNat
  | pair {a b : Nat} (ha : a < 0x400) (hb : b < 0x400) :
      Encodes [UInt16.ofNat (0xD800 + a), UInt16.ofNat (0xDC00 + b)] (0x10000 + a * 0x400 + b)

theorem encodes_ofCodePoint {n : Nat} (hn : n ≤ 0x10FFFF) : (ofCodePoint n).Encodes n := by
  rw [ofCodePoint]
  split
  · next hplane =>
    have hunit : (UInt16.ofNat n).toNat = n := UInt16.toNat_ofNat_of_lt' hplane
    have := Encodes.single (UInt16.ofNat n)
    rwa [hunit] at this
  · next hplane =>
    have hpair := Encodes.pair (a := (n - 0x10000) / 0x400) (b := (n - 0x10000) % 0x400)
      (by omega) (by omega)
    have hsum : 0x10000 + (n - 0x10000) / 0x400 * 0x400 + (n - 0x10000) % 0x400 = n := by omega
    rwa [hsum] at hpair

/-- **Every code point is written in exactly one way.** -/
theorem encodes_iff {t : Text} {n : Nat} : t.Encodes n ↔ n ≤ 0x10FFFF ∧ t = ofCodePoint n := by
  constructor
  · intro h
    cases h with
    | single c =>
      have hc : c.toNat < 0x10000 := c.toNat_lt
      refine ⟨by omega, ?_⟩
      rw [ofCodePoint, if_pos hc, UInt16.ofNat_toNat]
    | @pair a b ha hb =>
      refine ⟨by omega, ?_⟩
      have hhigh : (0x10000 + a * 0x400 + b - 0x10000) / 0x400 = a := by omega
      have hlow : (0x10000 + a * 0x400 + b - 0x10000) % 0x400 = b := by omega
      rw [ofCodePoint, if_neg (by omega), hhigh, hlow]
  · rintro ⟨hn, rfl⟩
    exact encodes_ofCodePoint hn

end Text

/-- The value of a run of digits is that of its digits by place, the last of which counts ones. -/
theorem Decimal.value_eq_ofDigits (base : Nat) (digits : Text) :
    value base digits = Nat.ofDigits base (digits.reverse.map digitValue) := by
  induction digits using List.reverseRecOn with
  | nil => rfl
  | append_singleton digits c ih =>
    rw [value_append, ih, List.reverse_append, List.reverse_singleton, List.singleton_append,
      List.map_cons, Nat.ofDigits_cons, Nat.add_comm]

/-! ## References -/

namespace Reference

variable {r : Reference} {t after v : Text}

/-- The reference is made of the right units, and has one of them at least. -/
inductive IsFormed : Reference → Prop
  | decimal {digits : Text} (hdigits : digits.IsMadeOf CodeUnit.digits) :
      IsFormed (decimal digits)
  | hexadecimal {letter : CodeUnit} {digits : Text} (hletter : letter ∈ ("xX" : Text))
      (hdigits : digits.IsMadeOf hexDigits) : IsFormed (hexadecimal letter digits)
  | named {name : Text} (hname : name.IsMadeOf letters) : IsFormed (named name)

/-- The reference has the units as its character: it counts to a code point or has one of six
names. -/
inductive Names : Reference → Text → Prop
  | decimal {digits t : Text} (h : t.Encodes (Nat.ofDigits 10 (digits.reverse.map place))) :
      Names (decimal digits) t
  | hexadecimal {letter : CodeUnit} {digits t : Text}
      (h : t.Encodes (Nat.ofDigits 16 (digits.reverse.map place))) :
      Names (hexadecimal letter digits) t
  | amp : Names (named "amp") "&"
  | lt : Names (named "lt") "<"
  | gt : Names (named "gt") ">"
  | quot : Names (named "quot") "\""
  | apos : Names (named "apos") "'"
  | nbsp : Names (named "nbsp") [0xA0]

/-- A reference between its ampersand and its semicolon, with a hash when it is a number. -/
def written : Reference → Text
  | decimal digits => "&#" ++ digits ++ ";"
  | hexadecimal letter digits => "&#" ++ letter :: digits ++ ";"
  | named name => "&" ++ name ++ ";"

/-- What is put in the place of a reference: its character, and the reference itself when it has
none. -/
def StandsFor (r : Reference) (t : Text) : Prop :=
  r.Names t ∨ (∀ other, ¬ r.Names other) ∧ t = r.written

theorem written_eq (r : Reference) : r.written = r.source := by cases r <;> rfl

theorem isHexLetter_iff {c : CodeUnit} : isHexLetter c = true ↔ c ∈ ("xX" : Text) := by
  have hletters : ("xX" : Text) = [0x78, 0x58] := by decide
  simp [isHexLetter, hletters]

/-! ## Reading -/

/-- A formed reference is read, whatever follows. -/
theorem read?_of_isFormed (h : r.IsFormed) (after : Text) :
    read? (r.content ++ semicolon :: after) = some (r, after) := by
  cases h with
  | decimal hdigits =>
    obtain ⟨hne, hall⟩ := Text.isRunOf_iff.mp ((Text.isMadeOf_iff isDigit_iff).mp hdigits)
    obtain ⟨c, digits, rfl⟩ := List.exists_cons_of_ne_nil hne
    -- A digit is no letter, so that the reference is one in decimal.
    have hc : isHexLetter c = false := by
      have hdigit := hall c List.mem_cons_self
      rw [isHexLetter, Bool.or_eq_false_iff, beq_eq_false_iff_ne, beq_eq_false_iff_ne]
      exact ⟨ne_of_class hdigit (by decide), ne_of_class hdigit (by decide)⟩
    have hstop : Text.StopsAt isDigit (semicolon :: after) := Text.stopsAt_cons.mpr (by decide)
    rw [content, List.cons_append, read?, if_pos rfl, List.cons_append, numeric?, hc,
      if_neg Bool.false_ne_true, ← List.cons_append, Text.takeWhile_run hall hstop,
      Text.dropWhile_run hall hstop]
    exact closed?_semicolon hne _ _
  | @hexadecimal letter digits hletter hdigits =>
    have hletter := isHexLetter_iff.mpr hletter
    obtain ⟨hne, hall⟩ := Text.isRunOf_iff.mp ((Text.isMadeOf_iff isHexDigit_iff).mp hdigits)
    have hstop : Text.StopsAt isHexDigit (semicolon :: after) := Text.stopsAt_cons.mpr (by decide)
    rw [content, List.cons_append, read?, if_pos rfl, List.cons_append, numeric?, if_pos hletter,
      Text.takeWhile_run hall hstop, Text.dropWhile_run hall hstop]
    exact closed?_semicolon hne _ _
  | named hname => exact read?_named ((Text.isMadeOf_iff isAlpha_iff).mp hname) after

/-- What is read is formed. -/
theorem isFormed_of_read? (h : read? t = some (r, after)) : r.IsFormed := by
  have hrun {p : CodeUnit → Bool} {alphabet s : Text} (hp : ∀ {c}, p c = true ↔ c ∈ alphabet)
      (hne : s.takeWhile p ≠ []) : Text.IsMadeOf (s.takeWhile p) alphabet :=
    (Text.isMadeOf_iff hp).mpr (Text.isRunOf_iff.mpr ⟨hne, List.all_eq_true.mp List.all_takeWhile⟩)
  cases t with
  | nil => simp [read?] at h
  | cons c rest =>
    rw [read?] at h
    split at h
    · cases rest with
      | nil => simp [numeric?] at h
      | cons d rest =>
        rw [numeric?] at h
        split at h
        · next hletter =>
          obtain ⟨rfl, -, hne⟩ := eq_of_closed? h
          exact .hexadecimal (isHexLetter_iff.mp hletter) (hrun isHexDigit_iff hne)
        · obtain ⟨rfl, -, hne⟩ := eq_of_closed? h
          exact .decimal (hrun isDigit_iff hne)
    · obtain ⟨rfl, -, hne⟩ := eq_of_closed? h
      exact .named (hrun isAlpha_iff hne)

/-- **Exactly the formed references are read**, with their ampersand and their semicolon. -/
theorem read?_eq_some_iff :
    read? t = some (r, after) ↔ r.IsFormed ∧ ampersand :: t = r.source ++ after := by
  refine ⟨fun h => ⟨isFormed_of_read? h, source_append_of_read? h⟩, ?_⟩
  rintro ⟨hformed, hsource⟩
  obtain rfl : t = r.content ++ semicolon :: after := by
    simpa [source] using hsource
  exact read?_of_isFormed hformed after

/-! ## What references stand for -/

theorem character?_eq_some_iff {n : Nat} : character? n = some v ↔ v.Encodes n := by
  rw [character?, Option.ite_none_right_eq_some, Option.some.injEq, Text.encodes_iff, eq_comm]

/-- The value of a run of digits is that of what the digits count. -/
theorem value_eq_ofDigits_place {base : Nat} {digits : Text} (h : ∀ c ∈ digits, c ∈ hexDigits) :
    Decimal.value base digits = Nat.ofDigits base (digits.reverse.map place) := by
  rw [Decimal.value_eq_ofDigits]
  congr 1
  exact List.map_inj_left.mpr fun c hc => digitValue_eq_place (h c (List.mem_reverse.mp hc))

theorem names_iff (hr : r.IsFormed) : r.Names v ↔ r.value? = some v := by
  cases hr with
  | decimal hdigits =>
    have hhex := fun c hc =>
      List.mem_append_left lowerHexDigits (List.mem_append_left "ABCDEF" (hdigits.2 c hc))
    rw [value?, character?_eq_some_iff, value_eq_ofDigits_place hhex]
    exact ⟨fun | .decimal h => h, .decimal⟩
  | hexadecimal hletter hdigits =>
    rw [value?, character?_eq_some_iff, value_eq_ofDigits_place hdigits.2]
    exact ⟨fun | .hexadecimal h => h, .hexadecimal⟩
  | named hname =>
    constructor
    · intro h
      cases h <;> decide
    · intro h
      obtain ⟨⟨name', c⟩, hfind, rfl⟩ := Option.map_eq_some_iff.mp h
      have hname := List.find?_some hfind
      rw [beq_iff_eq] at hname
      subst hname
      have hmem := List.mem_of_find?_eq_some hfind
      simp only [names, List.mem_cons, Prod.mk.injEq, List.not_mem_nil, or_false] at hmem
      rcases hmem with ⟨rfl, rfl⟩ | ⟨rfl, rfl⟩ | ⟨rfl, rfl⟩ | ⟨rfl, rfl⟩ | ⟨rfl, rfl⟩ | ⟨rfl, rfl⟩
      exacts [.amp, .lt, .gt, .quot, .apos, .nbsp]

/-- **Every formed reference is replaced by what it stands for**, and by nothing else. -/
theorem standsFor_iff (hr : r.IsFormed) : r.StandsFor v ↔ v = r.replacement := by
  simp only [StandsFor, names_iff hr, replacement, written_eq]
  cases r.value? with
  | none => simp
  | some w => simp [eq_comm]

end Reference

namespace Text

/-- A text that no formed reference stands in is left as it is. -/
theorem decoded_of_not_infix {t : Text} (h : ∀ r : Reference, r.IsFormed → ¬ r.written <:+: t) :
    t.decoded = t := by
  fun_induction decoded t with
  | case1 => rfl
  | case2 rest r after hread ih =>
    obtain ⟨hformed, hsource⟩ := Reference.read?_eq_some_iff.mp hread
    rw [← Reference.written_eq] at hsource
    exact absurd ⟨[], after, hsource.symm⟩ (h r hformed)
  | case3 rest hread ih =>
    rw [ih fun r hr hpart => h r hr (hpart.trans (List.infix_cons List.infix_rfl))]
  | case4 d rest hd ih =>
    rw [ih fun r hr hpart => h r hr (hpart.trans (List.infix_cons List.infix_rfl))]

/-- A reference in any text is replaced, and what is before it and behind it is decoded. -/
theorem decoded_written_append {r : Reference} (hr : r.IsFormed) (x y : Text) :
    (x ++ r.written ++ y).decoded = x.decoded ++ r.replacement ++ y.decoded := by
  have hwritten : x ++ r.written ++ y = x ++ ampersand :: (r.content ++ semicolon :: y) := by
    simp [Reference.written_eq, Reference.source]
  rw [hwritten, decoded_append_cons (by decide), decoded_of_read? (Reference.read?_of_isFormed hr y),
    List.append_assoc]

/-- **Decoding is the substitution of the references in a text**, each by what it stands for. A
text without references is left as it is, and a reference in a text is replaced, whatever is before
it and behind it. -/
theorem decoded_substitutes :
    (∀ t : Text, (∀ r : Reference, r.IsFormed → ¬ r.written <:+: t) → t.decoded = t) ∧
      ∀ r : Reference, r.IsFormed → ∃ value : Text, (∀ v, r.StandsFor v ↔ v = value) ∧
        ∀ x y : Text, (x ++ r.written ++ y).decoded = x.decoded ++ value ++ y.decoded :=
  ⟨fun _ => decoded_of_not_infix, fun r hr =>
    ⟨r.replacement, fun _ => Reference.standsFor_iff hr, decoded_written_append hr⟩⟩

/-- An ampersand that is written in hexadecimal stands between the beginning of one reference and
the end of another. It makes neither of them whole. -/
theorem decoded_substitutes_ampersand :
    (Reference.hexadecimal 'X' "0026").IsFormed ∧
      (("&am" : Text) ++ (Reference.hexadecimal 'X' "0026").written ++ "amp;").decoded =
        "&am&amp;" := by
  have hformed : (Reference.hexadecimal 'X' "0026").IsFormed :=
    .hexadecimal (by decide) (by decide)
  obtain ⟨value, hvalue, hdecoded⟩ := decoded_substitutes.2 _ hformed
  have hstands : (Reference.hexadecimal 'X' "0026").StandsFor [ampersand] :=
    .inl (.hexadecimal (.single ampersand))
  obtain rfl := (hvalue _).mp hstands
  have hbefore : decoded "&am" = "&am" := by
    refine decoded_substitutes.1 _ fun r _ hpart => ?_
    have hsemicolon : semicolon ∈ r.written := by
      rw [Reference.written_eq]
      exact List.mem_append_right _ List.mem_cons_self
    exact absurd (hpart.subset hsemicolon) (by decide)
  have hafter : decoded "amp;" = "amp;" := decoded_of_notMem (by decide)
  refine ⟨hformed, ?_⟩
  rw [hdecoded, hbefore, hafter]
  decide

end Text

end MarkupQuery
