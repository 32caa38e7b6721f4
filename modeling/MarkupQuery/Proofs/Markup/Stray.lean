import MarkupQuery.Proofs.Markup.Decoding
import MarkupQuery.Proofs.Markup.Whitespace

/-!
# Text with stray brackets

Where no bracket closes, nothing is a tag, and all of the markup is one text. It does not reach the
tree as one event, though: every opening bracket is an event of its own, and so is every part
between two of them. A part that is nothing but blanks is dropped when blanks are not kept, as if it
stood alone, and so blanks are lost from the middle of a text. All else is kept, in its order, and
decoded as it would be in one piece.

## Main definitions

* `Text.thinned`: a text without the parts between opening brackets that are dropped
* `Builder.put`: the tree with a text at its end, unless the text is empty

## Main results

* `Event.scan_lessThan`: a bracket that no other closes is a text
* `Builder.foldl_scan`: the events of a markup without closing brackets add its thinned text
* `Text.decoded_thinned_eq_iff`: when thinning makes no difference
* `Node.parse_of_notMem_greaterThan`: what a markup without closing brackets describes
-/

namespace MarkupQuery

open CodeUnit

/-! ## Texts and their parts -/

namespace Text

variable {keepWhitespace : Bool} {part rest t : Text}

/-- A text is a part without the bracket, or such a part, the bracket and a text. -/
@[elab_as_elim]
theorem induction_on_parts {motive : Text → Prop} (mark : CodeUnit)
    (last : ∀ part, mark ∉ part → motive part)
    (cut : ∀ part rest, mark ∉ part → motive rest → motive (part ++ mark :: rest)) (t : Text) :
    motive t := by
  by_cases h : mark ∈ t
  · obtain ⟨part, rest, hsplit, hpart⟩ := List.eq_append_cons_of_mem h
    rw [hsplit]
    exact cut part rest hpart (induction_on_parts mark last cut rest)
  · exact last t h
termination_by t.length
decreasing_by
  rw [hsplit, List.length_append, List.length_cons]
  omega

/-- The text without those of its parts between opening brackets that are dropped. -/
def thinned (keepWhitespace : Bool) (t : Text) : Text :=
  ("<" : Text).intercalate ((t.splitOn ('<' : CodeUnit)).map (left keepWhitespace))

theorem thinned_eq (t : Text) : thinned keepWhitespace t =
    [lessThan].intercalate ((t.splitOn lessThan).map (left keepWhitespace)) := rfl

theorem thinned_of_notMem (h : lessThan ∉ t) :
    thinned keepWhitespace t = left keepWhitespace t := by
  rw [thinned_eq, List.splitOn_eq_singleton h, List.map_singleton, List.intercalate_singleton]

theorem thinned_append_cons (h : lessThan ∉ part) (rest : Text) :
    thinned keepWhitespace (part ++ lessThan :: rest) =
      left keepWhitespace part ++ lessThan :: thinned keepWhitespace rest := by
  have hne : (rest.splitOn lessThan).map (left keepWhitespace) ≠ [] := by
    rw [Ne, List.map_eq_nil_iff]
    exact List.splitOn_ne_nil lessThan rest
  rw [thinned_eq, List.splitOn_append_cons_self_of_not_mem h, List.map_cons,
    List.intercalate_cons_of_ne_nil hne, List.append_assoc, List.singleton_append, thinned_eq]

/-- When blanks are kept, all of a text is left. -/
theorem thinned_true (t : Text) : thinned true t = t := by
  have hleft : left true = id := by
    funext part
    rw [left, Builder.kept_true, Option.getD_some, id]
  rw [thinned_eq, hleft, List.map_id, List.intercalate_splitOn]

theorem left_eq_nil_iff : left keepWhitespace part = [] ↔
    part = [] ∨ Builder.drops keepWhitespace part = true := by
  by_cases h : Builder.drops keepWhitespace part = true
  · rw [left_of_drops h]
    exact iff_of_true rfl (Or.inr h)
  · rw [left_of_not_drops h, or_iff_left h]

/-- Only blanks are dropped, and a bracket is none. -/
theorem not_drops_of_mem (keepWhitespace : Bool) (h : lessThan ∈ t) :
    ¬ Builder.drops keepWhitespace t = true := by
  intro hdrops
  have hblank := Builder.isBlank_of_drops hdrops
  exact Bool.false_ne_true (List.all_eq_true.mp hblank lessThan h)

/-- Nothing is left of a text only when it is dropped as a whole. -/
theorem thinned_eq_nil_iff : thinned keepWhitespace t = [] ↔
    t = [] ∨ Builder.drops keepWhitespace t = true := by
  by_cases h : lessThan ∈ t
  · -- The bracket is left, and keeps the text from being dropped.
    obtain ⟨part, rest, rfl, hpart⟩ := List.eq_append_cons_of_mem h
    rw [thinned_append_cons hpart]
    have hdrops := not_drops_of_mem keepWhitespace h
    exact iff_of_false (by simp) (by simpa using hdrops)
  · rw [thinned_of_notMem h, left_eq_nil_iff]

/-! ## Decoding what is left -/

/-- An opening bracket stands in no reference. -/
theorem decoded_append_lessThan (part rest : Text) :
    (part ++ lessThan :: rest).decoded = part.decoded ++ lessThan :: rest.decoded := by
  rw [decoded_append_cons (show isReferenceUnit lessThan = false by decide),
    decoded_cons_of_ne (show lessThan ≠ ampersand by decide)]

/-- What is dropped has nothing to decode. -/
theorem decoded_of_drops (h : Builder.drops keepWhitespace part = true) : part.decoded = part :=
  decoded_of_isBlank (Builder.isBlank_of_drops h)

theorem decoded_left_sublist (keepWhitespace : Bool) (part : Text) :
    (left keepWhitespace part).decoded.Sublist part.decoded := by
  by_cases h : Builder.drops keepWhitespace part = true
  · rw [left_of_drops h, decoded]
    exact List.nil_sublist _
  · rw [left_of_not_drops h]

theorem decoded_left_eq_iff : (left keepWhitespace part).decoded = part.decoded ↔
    (Builder.drops keepWhitespace part = true → part = []) := by
  by_cases h : Builder.drops keepWhitespace part = true
  · rw [left_of_drops h, decoded_of_drops h, decoded, eq_comm, forall_prop_of_true h]
  · rw [left_of_not_drops h]
    exact iff_of_true rfl fun hdrops => absurd hdrops h

/-- Thinning takes units out of a decoded text and does nothing else to it. -/
theorem decoded_thinned_sublist (keepWhitespace : Bool) (t : Text) :
    (thinned keepWhitespace t).decoded.Sublist t.decoded := by
  induction t using induction_on_parts lessThan with
  | last part hpart =>
    rw [thinned_of_notMem hpart]
    exact decoded_left_sublist keepWhitespace part
  | cut part rest hpart ih =>
    rw [thinned_append_cons hpart, decoded_append_lessThan, decoded_append_lessThan]
    exact (decoded_left_sublist keepWhitespace part).append (ih.cons_cons lessThan)

/-- When units are taken out of the two parts of a text around a mark, the text stays the same only
if both parts do. -/
theorem append_cons_eq_iff_of_sublist {mark : CodeUnit} {s s' t t' : Text} (hs : s.Sublist s')
    (ht : t.Sublist t') : s ++ mark :: t = s' ++ mark :: t' ↔ s = s' ∧ t = t' := by
  constructor
  · intro h
    -- Neither part has become longer, and together they are as long as before.
    have hlength := congrArg List.length h
    simp only [List.length_append, List.length_cons] at hlength
    have hs_le := hs.length_le
    have ht_le := ht.length_le
    exact ⟨hs.eq_of_length (by omega), ht.eq_of_length (by omega)⟩
  · rintro ⟨rfl, rfl⟩
    rfl

/-- **Thinning makes no difference to a decoded text exactly when no part of blanks is dropped.** -/
theorem decoded_thinned_eq_iff : (thinned keepWhitespace t).decoded = t.decoded ↔
    ∀ part ∈ t.splitOn lessThan, Builder.drops keepWhitespace part = true → part = [] := by
  induction t using induction_on_parts lessThan with
  | last part hpart =>
    rw [thinned_of_notMem hpart, List.splitOn_eq_singleton hpart, List.forall_mem_singleton,
      decoded_left_eq_iff]
  | cut part rest hpart ih =>
    rw [thinned_append_cons hpart, decoded_append_lessThan, decoded_append_lessThan,
      append_cons_eq_iff_of_sublist (decoded_left_sublist keepWhitespace part)
        (decoded_thinned_sublist keepWhitespace rest),
      List.splitOn_append_cons_self_of_not_mem hpart, List.forall_mem_cons, decoded_left_eq_iff, ih]

end Text

/-! ## Events -/

namespace Event

variable {rest : Text}

/-- A comment has a closing bracket. -/
theorem comment?_of_notMem (h : greaterThan ∉ rest) : comment? rest = none := by
  cases hcomment : comment? rest with
  | none => rfl
  | some found =>
    obtain ⟨inner, after⟩ := found
    -- Its end has been found somewhere in the text.
    simp only [comment?, Option.bind_eq_bind, Option.bind_eq_some_iff] at hcomment
    obtain ⟨body, hbody, ⟨before, after'⟩, hbreak, -⟩ := hcomment
    rw [← Text.append_of_isPrefixOf? hbody, Text.eq_append_of_breakOn hbreak] at h
    have hmem : greaterThan ∈ ("-->" : Text) := by decide
    simp [hmem] at h

/-- So has a tag. -/
theorem inside?_of_notMem (h : greaterThan ∉ rest) : Tag.inside? rest = none := by
  cases hinside : Tag.inside? rest with
  | none => rfl
  | some found =>
    rw [Tag.eq_append_of_inside? hinside] at h
    simp at h

/-- **A bracket that no other closes is a text.** -/
theorem scan_lessThan (h : greaterThan ∉ rest) :
    scan (lessThan :: rest) = text [lessThan] :: scan rest := by
  rw [scan, read, if_pos rfl, comment?_of_notMem h]
  simp only [inside?_of_notMem h]

end Event

/-! ## Reading the events -/

namespace Builder

variable {keepWhitespace : Bool} {b : Builder}

/-- The tree with a text at its end, and the tree itself when there is nothing in the text. -/
def put (b : Builder) (value : Text) : Builder := if value = [] then b else b.addText value

theorem put_of_ne_nil {value : Text} (h : value ≠ []) : b.put value = b.addText value := if_neg h

/-- Texts that are put one after the other are one text. -/
theorem put_put (b : Builder) (s t : Text) : (b.put s).put t = b.put (s ++ t) := by
  by_cases hs : s = []
  · rw [put, put, put, if_pos hs, hs, List.nil_append]
  by_cases ht : t = []
  · rw [ht, List.append_nil, put, if_pos rfl]
  · rw [put_of_ne_nil hs, put_of_ne_nil ht,
      put_of_ne_nil (List.append_ne_nil_of_left_ne_nil hs t), addText_addText]

/-- The event of a part adds what is left of it. -/
theorem foldl_scan_part (keepWhitespace : Bool) {part rest : Text} (hpart : lessThan ∉ part)
    (hrest : Text.StopsAt (· != lessThan) rest) (b : Builder) :
    (Event.scan (part ++ rest)).foldl (add keepWhitespace) b =
      (Event.scan rest).foldl (add keepWhitespace)
        (b.put (Text.left keepWhitespace part).decoded) := by
  by_cases hne : part = []
  · -- An empty part is no event, and nothing is left of it.
    have hleft : Text.left keepWhitespace part = [] := Text.left_eq_nil_iff.mpr (Or.inl hne)
    rw [hleft, hne, List.nil_append, Text.decoded, put, if_pos rfl]
  · rw [Event.scan_text hne hpart hrest, List.foldl_cons, add]
    split
    · next hdrops => rw [Text.left_of_drops hdrops, Text.decoded, put, if_pos rfl]
    · next hdrops =>
      rw [Text.left_of_not_drops hdrops, put_of_ne_nil (Text.decoded_ne_nil hne)]

/-- A stray bracket is kept. -/
theorem add_lessThan (b : Builder) :
    b.add keepWhitespace (.text [lessThan]) = b.put [lessThan] := by
  have hdrops : ¬ drops keepWhitespace [lessThan] = true :=
    Text.not_drops_of_mem keepWhitespace List.mem_cons_self
  rw [add, if_neg hdrops, Text.decoded_of_notMem (by decide), put_of_ne_nil (by decide)]

/-- **The events of a markup without closing brackets add its thinned text**, decoded in one
piece. -/
theorem foldl_scan {t : Text} (h : greaterThan ∉ t) (b : Builder) :
    (Event.scan t).foldl (add keepWhitespace) b =
      b.put (Text.thinned keepWhitespace t).decoded := by
  induction t using Text.induction_on_parts lessThan generalizing b with
  | last part hpart =>
    have hfold := foldl_scan_part keepWhitespace hpart Text.stopsAt_nil b
    rw [List.append_nil, Event.scan, List.foldl_nil] at hfold
    rw [hfold, Text.thinned_of_notMem hpart]
  | cut part rest hpart ih =>
    have hrest : greaterThan ∉ rest := by
      intro hmem
      exact h (List.mem_append_right _ (List.mem_cons_of_mem _ hmem))
    -- The part, the bracket and the rest are added one after the other, and decoded as one.
    rw [foldl_scan_part _ hpart (Text.stopsAt_cons.mpr (bne_self_eq_false _)),
      Event.scan_lessThan hrest, List.foldl_cons, add_lessThan, ih hrest, put_put, put_put,
      Text.thinned_append_cons hpart, Text.decoded_append_lessThan, List.singleton_append]

end Builder

namespace Node

variable {t : Text}

/-- A markup without closing brackets is one text at most. -/
theorem parse_eq_document_thinned (h : greaterThan ∉ t) (keepWhitespace : Bool) :
    parse keepWhitespace t =
      document (if t.thinned keepWhitespace = [] then []
        else [text (t.thinned keepWhitespace).decoded]) := by
  rw [parse, parseAll, Builder.foldl_scan h]
  split
  · next hnil =>
    rw [hnil, Text.decoded, Builder.put, if_pos rfl]
    rfl
  · next hne =>
    rw [Builder.put_of_ne_nil (Text.decoded_ne_nil hne)]
    rfl

/-- **What a markup without closing brackets describes.** When blanks are kept, it is the text,
decoded. When they are dropped, the document is empty if the text is nothing but blanks, and
otherwise has one text: that of the markup without its parts of blanks between opening brackets. So
nothing is lost from the text exactly when there is no such part. -/
theorem parse_of_notMem_greaterThan (h : ('>' : CodeUnit) ∉ t) :
    parse true t = document (if t = [] then [] else [text t.decoded]) ∧
      (t ⊆ whitespace → parse false t = document []) ∧
      (¬ t ⊆ whitespace →
        parse false t = document [text (t.thinned false).decoded] ∧
          (parse false t = document [text t.decoded] ↔
            ∀ part ∈ t.splitOn ('<' : CodeUnit), part ⊆ whitespace → part = [])) := by
  have hkept := parse_eq_document_thinned h true
  have hdropped := parse_eq_document_thinned h false
  refine ⟨?_, ?_, ?_⟩
  · rwa [Text.thinned_true] at hkept
  · intro hblank
    have hnil : t.thinned false = [] :=
      Text.thinned_eq_nil_iff.mpr (Or.inr (Builder.drops_iff.mpr ⟨rfl, hblank⟩))
    rwa [if_pos hnil] at hdropped
  · intro hblank
    have hne : t.thinned false ≠ [] := by
      rw [Ne, Text.thinned_eq_nil_iff]
      rintro (rfl | hdrops)
      · exact hblank (List.nil_subset _)
      · exact hblank (Builder.drops_iff.mp hdrops).2
    rw [if_neg hne] at hdropped
    refine ⟨hdropped, ?_⟩
    -- The two documents are the same if their texts are.
    rw [hdropped, document.injEq, List.singleton_inj, text.injEq, Text.decoded_thinned_eq_iff]
    simp only [Builder.drops_iff, true_and]
    exact Iff.rfl

/-- The blank between two stray brackets is lost, unless blanks are kept. -/
theorem parse_blank_between_brackets :
    ('>' : CodeUnit) ∉ ("a < < b" : Text) ∧
      parse false "a < < b" = document [text "a << b"] ∧
      parse true "a < < b" = document [text "a < < b"] := by
  have hnotMem : ('>' : CodeUnit) ∉ ("a < < b" : Text) := by decide
  obtain ⟨hkept, -, hdropped⟩ := parse_of_notMem_greaterThan hnotMem
  have hthinned : Text.thinned false "a < < b" = "a << b" := by decide
  refine ⟨hnotMem, ?_, ?_⟩
  · rw [(hdropped (by decide)).1, hthinned, Text.decoded_of_notMem (by decide)]
  · rw [hkept, if_neg (by decide), Text.decoded_of_notMem (by decide)]

end Node

end MarkupQuery
