import MarkupQuery.Markup.Event
import MarkupQuery.Proofs.Markup.StartTag
import MarkupQuery.Proofs.Text.Word

/-!
# End tags and raw bodies

The body of a raw element goes on to the first end tag for its name, in whatever case and with
whatever blanks that is written. No such end tag begins within a body that has none and ends in
what follows the body, for an angle bracket that opens a tag is not in the rest of one.

## Main definitions

* `EndTag.IsWritten`: the ways to write the end tag for a name

## Main results

* `EndTag.isWritten_of_read?`, `EndTag.read?_of_isWritten`: what is read as an end tag is one, and
  every one is read
* `EndTag.search_closeTag`: a body without an end tag is read up to its own
* `Event.not_isInfix_rawBody`: a body that is read has no end tag
* `EndTag.name?_of_isName`: the name of a written end tag
-/

namespace MarkupQuery

open CodeUnit

namespace EndTag

variable {name body : Text}

/-- A text that is an end tag for a name: `</`, the name in letters of either case, and `>`, with
blanks around the name. -/
def IsWritten (name t : Text) : Prop :=
  ∃ before word after : Text, t = "</" ++ (before ++ word ++ after) ++ ">" ∧
    before ⊆ whitespace ∧ word.Recases name ∧ after ⊆ whitespace

/-- What is read as an end tag is one. -/
theorem isWritten_of_read? {t tag after : Text} (h : read? name t = some (tag, after)) :
    IsWritten name tag := by
  match t with
  | [] => simp [read?] at h
  | [_] => simp [read?] at h
  | c :: d :: rest =>
    rw [read?] at h
    split at h
    · next hopen =>
      simp only at h
      split at h
      · next hword =>
        split at h
        · contradiction
        · next e remainder hdrop =>
          split at h
          · next hclose =>
            -- The blanks are what was skipped before and after the name.
            have hblanks (t : Text) : t.takeWhile isWhitespace ⊆ whitespace := fun c hc =>
              isWhitespace_iff.mp (List.all_eq_true.mp List.all_takeWhile c hc)
            obtain ⟨rfl, rfl⟩ := Prod.mk.inj (Option.some.inj h)
            refine ⟨_, _, _, ?_, hblanks rest, hword ▸ Text.recases_lower _,
              hblanks ((rest.dropWhile isWhitespace).drop name.length)⟩
            rw [hopen.1, hopen.2, hclose]
            rfl
          · contradiction
      · contradiction
    · contradiction

/-- A text that is an end tag is read as one, whatever follows. -/
theorem read?_of_isWritten (hname : Tag.isName name = true) (hlower : name.IsLowerCase) {t : Text}
    (h : IsWritten name t) (rest : Text) : read? name (t ++ rest) = some (t, rest) := by
  obtain ⟨before, word, after, rfl, hbefore, hword, hafter⟩ := h
  have hword : word.lower = name := hword.lower_eq hlower
  have hbefore : ∀ c ∈ before, c.isWhitespace = true :=
    fun c hc => isWhitespace_iff.mpr (hbefore hc)
  have hafter : ∀ c ∈ after, c.isWhitespace = true :=
    fun c hc => isWhitespace_iff.mpr (hafter hc)
  have hlength : name.length = word.length := by rw [← hword, Text.lower, List.length_map]
  -- A blank at the start of the word would be one at the start of the name.
  have hstop : Text.StopsAt isWhitespace (word ++ (after ++ greaterThan :: rest)) := by
    cases word with
    | nil =>
      obtain ⟨c, more, rfl, -⟩ := Tag.exists_cons_of_isName hname
      contradiction
    | cons c word =>
      rw [List.cons_append, Text.stopsAt_cons, Bool.eq_false_iff]
      intro hc
      have hmem : c.lower ∈ name := by
        rw [← hword]
        exact List.mem_map_of_mem List.mem_cons_self
      exact Bool.eq_false_iff.mp (Tag.isWhitespace_of_isName hname _ hmem) (isWhitespace_lower hc)
  have hend : Text.StopsAt isWhitespace (greaterThan :: rest) := by
    rw [Text.stopsAt_cons]
    decide
  have hunits : ("</" : Text) ++ (before ++ word ++ after) ++ ">" =
      lessThan :: slash :: (before ++ word ++ after) ++ [greaterThan] := rfl
  have htext : lessThan :: slash :: (before ++ word ++ after) ++ [greaterThan] ++ rest =
      lessThan :: slash :: (before ++ (word ++ (after ++ greaterThan :: rest))) := by simp
  rw [hunits, htext, read?, if_pos ⟨rfl, rfl⟩]
  simp only [Text.dropWhile_run hbefore hstop, Text.takeWhile_run hbefore hstop, hlength,
    List.take_left, List.drop_left, hword, if_true, Text.dropWhile_run hafter hend,
    Text.takeWhile_run hafter hend]
  simp

/-- The end tag that closes an element is one. -/
theorem isWritten_closeTag (hlower : name.IsLowerCase) : IsWritten name (Node.closeTag name) := by
  have hword := Text.recases_lower name
  rw [Text.lower_of_isLowerCase hlower] at hword
  refine ⟨[], name, [], ?_, List.nil_subset _, hword, List.nil_subset _⟩
  rw [Node.closeTag_eq, List.nil_append, List.append_nil]
  rfl

/-- The bracket that opens an end tag is not in the rest of it. -/
theorem IsWritten.exists_cons {t : Text} (hname : lessThan ∉ name) (hlower : name.IsLowerCase)
    (h : IsWritten name t) : ∃ rest, t = lessThan :: rest ∧ lessThan ∉ rest := by
  obtain ⟨before, word, after, rfl, hbefore, hword, hafter⟩ := h
  obtain rfl := hword.lower_eq hlower
  -- A bracket is no blank, and would be itself in lower case.
  have hblank {blanks : Text} (hblanks : blanks ⊆ whitespace) : lessThan ∉ blanks := by
    intro hmem
    exact absurd (hblanks hmem) (by decide)
  have hword : lessThan ∉ word := fun hmem => hname (List.mem_map_of_mem hmem)
  refine ⟨slash :: (before ++ word ++ after) ++ [greaterThan], rfl, ?_⟩
  simp only [List.cons_append, List.mem_cons, List.mem_append, List.not_mem_nil, or_false, not_or]
  exact ⟨by decide, ⟨⟨hblank hbefore, hword⟩, hblank hafter⟩, by decide⟩

/-- **A body that has no end tag for the name is read up to the end tag that follows it.** -/
theorem search_closeTag (hname : Tag.isName name = true) (hlower : name.IsLowerCase)
    (hbody : ∀ t, IsWritten name t → ¬ t <:+: body) (rest : Text) :
    Text.search (read? name) (body ++ (Node.closeTag name ++ rest)) =
      some (body, Node.closeTag name, rest) := by
  have hclose := read?_of_isWritten hname hlower (isWritten_closeTag hlower) rest
  induction body with
  | nil =>
    rw [List.nil_append]
    obtain ⟨after, hafter⟩ : ∃ after, Node.closeTag name ++ rest = lessThan :: after := ⟨_, rfl⟩
    rw [hafter] at hclose ⊢
    rw [Text.search, hclose]
  | cons c body ih =>
    -- No end tag begins at the first unit of the body.
    have hnone : read? name (c :: body ++ (Node.closeTag name ++ rest)) = none := by
      rw [Option.eq_none_iff_forall_not_mem]
      rintro ⟨tag, after⟩ hread
      have hwritten := isWritten_of_read? hread
      rcases List.append_eq_append_iff.mp (append_of_read? hread) with
        ⟨x, hx, -⟩ | ⟨x, rfl, hx⟩
      · -- The end tag ends within the body.
        exact hbody tag hwritten ⟨[], x, by rw [List.nil_append, hx]⟩
      · cases x with
        | nil =>
          rw [List.append_nil] at hwritten
          exact hbody _ hwritten List.infix_rfl
        | cons d x =>
          -- It goes on into what follows, so that it has a second bracket.
          obtain ⟨t, ht, hless⟩ := hwritten.exists_cons (Tag.lessThan_notMem_of_isName hname) hlower
          obtain rfl : lessThan = d := (List.cons.inj hx).1
          obtain rfl : body ++ lessThan :: x = t := (List.cons.inj ht).2
          exact hless (List.mem_append_right _ List.mem_cons_self)
    have hrest : ∀ t, IsWritten name t → ¬ t <:+: body := by
      intro t ht hpart
      exact hbody t ht (hpart.trans (List.suffix_cons c body).isInfix)
    rw [List.cons_append] at hnone ⊢
    rw [Text.search, hnone]
    simp only [ih hrest]
    rfl

end EndTag

/-! ## What a search finds -/

/-- A search finds no later place than any at which something is recognised. -/
theorem Text.exists_search {α : Type} {recognise : Text → Option α} (x : Text) {y : Text}
    {found : α} (h : recognise y = some found) :
    ∃ before found', search recognise (x ++ y) = some (before, found') ∧
      before.length ≤ x.length := by
  induction x with
  | nil =>
    refine ⟨[], found, ?_, Nat.le_refl 0⟩
    cases y with
    | nil => rw [List.nil_append, search, h, Option.map_some]
    | cons c y => rw [List.nil_append, search, h]
  | cons c x ih =>
    obtain ⟨before, found', hsearch, hle⟩ := ih
    rw [List.cons_append, search]
    cases recognise (c :: (x ++ y)) with
    | some first => exact ⟨[], first, rfl, Nat.zero_le _⟩
    | none =>
      rw [hsearch]
      exact ⟨c :: before, found', rfl, Nat.succ_le_succ hle⟩

/-- **The body of a raw element has no end tag for the element**, wherever it ends. -/
theorem Event.not_isInfix_rawBody {name t : Text} (hname : Tag.isName name = true)
    (hlower : name.IsLowerCase) (ht : EndTag.IsWritten name t) (markup : Text) :
    ¬ t <:+: (rawBody name markup).1 := by
  rintro ⟨before, after, hpart⟩
  have hsplit := append_rawBody name markup
  rw [← hpart, List.append_assoc, List.append_assoc] at hsplit
  -- The end tag would be found where it stands or before that, and the body would end there.
  have hread := EndTag.read?_of_isWritten hname hlower ht
    (after ++ ((rawBody name markup).2.1 ++ (rawBody name markup).2.2))
  obtain ⟨body, found, hsearch, hle⟩ := Text.exists_search before hread
  rw [hsplit] at hsearch
  rw [rawBody, hsearch, Option.getD_some] at hpart
  have hlength := congrArg List.length hpart
  have hne : 0 < t.length := by
    obtain ⟨_, _, _, rfl, -⟩ := ht
    exact Nat.succ_pos _
  simp only [List.length_append] at hlength
  omega

namespace EndTag

/-- The name of a written end tag. -/
theorem name?_of_isName {name : Text} (hname : Tag.isName name = true)
    (hlower : name.lower = name) : name? name = some name := by
  have hblank : ∀ c ∈ name, c.isWhitespace = false := Tag.isWhitespace_of_isName hname
  rw [name?]
  simp only [Text.trim_of_forall hblank, hname, if_true, hlower]

end EndTag

end MarkupQuery
