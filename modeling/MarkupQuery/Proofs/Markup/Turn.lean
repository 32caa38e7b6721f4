import MarkupQuery.Markup.Tree
import MarkupQuery.Proofs.Markup.Alternative
import MarkupQuery.Proofs.Markup.Reading

/-!
# The loop over tokens

A markup is read in a loop, and all that the loop keeps is an index and the tree so far. In each
turn the pattern of tokens is looked for from the index on, at whatever place it is found. Behind a
token that opens a raw element the end tag of the element is looked for in the same way, and the
index is moved behind it, or to the end of the markup when there is none. None of this says that the
loop ends, or that nothing is passed over. But the pattern takes something wherever a markup goes
on, so that each turn begins where the one before it ended.

## Main definitions

* `Text.Finds`: the first place of a text where something is accepted
* `EndTag.Accepts`: an end tag at the start of a text
* `Turn`, `Turn.Resumes`: what a turn takes, and the index that it leaves
* `Turn.Loop`: the turns of the loop

## Main results

* `Turn.finds_iff`: a token is found at the index, wherever a markup goes on
* `Turn.resumes_iff`: what is taken behind a token is what its event has
* `Turn.loop_iff`: the turns of the loop are the events of the markup
* `Turn.exists_turns`: the loop ends, and its turns make up the markup
-/

namespace MarkupQuery

open CodeUnit

/-! ## Searches -/

namespace Text

variable {Accepts : Text → Text → Prop} {t found found' : Text} {start place place' : Nat}

/-- The text is found at a place: it is accepted there, and nothing is at an earlier place from
`start` on. -/
structure Finds (Accepts : Text → Text → Prop) (t : Text) (start place : Nat) (found : Text) :
    Prop where
  start_le : start ≤ place
  le_length : place ≤ t.length
  accepts : Accepts (t.drop place) found
  not_accepts : ∀ earlier, start ≤ earlier → earlier < place → ∀ other,
    ¬ Accepts (t.drop earlier) other

/-- A search has one outcome, if at each place at most one text is accepted. -/
theorem Finds.unique (hunique : ∀ t x y, Accepts t x → Accepts t y → x = y)
    (h : Finds Accepts t start place found) (h' : Finds Accepts t start place' found') :
    place = place' ∧ found = found' := by
  rcases Nat.lt_trichotomy place place' with hlt | rfl | hlt
  · exact absurd h.accepts (h'.not_accepts place h.start_le hlt found)
  · exact ⟨rfl, hunique _ _ _ h.accepts h'.accepts⟩
  · exact absurd h'.accepts (h.not_accepts place' h'.start_le hlt found')

/-- What is accepted at the start is found there. -/
theorem finds_start (hle : start ≤ t.length) (h : Accepts (t.drop start) found) :
    Finds Accepts t start start found where
  start_le := Nat.le_refl start
  le_length := hle
  accepts := h
  not_accepts _ hle hlt := absurd hlt (Nat.not_lt_of_le hle)

/-- A search unit by unit finds no later place than any at which something is recognised. -/
theorem exists_search_drop {α : Type} {recognise : Text → Option α} {k : Nat} {value : α}
    (h : recognise (t.drop k) = some value) :
    ∃ before found, search recognise t = some (before, found) ∧ before.length ≤ k := by
  obtain ⟨before, found, hsearch, hle⟩ := exists_search (t.take k) h
  rw [List.take_append_drop] at hsearch
  exact ⟨before, found, hsearch, hle.trans (List.length_take_le k t)⟩

section

variable {recognise : Text → Option (Text × Text)} {before after : Text}
  (haccepts : ∀ t found, Accepts t found ↔ ∃ after, recognise t = some (found, after))
include haccepts

/-- A search unit by unit finds the first place. -/
theorem finds_of_search (hle : start ≤ t.length)
    (h : search recognise (t.drop start) = some (before, found, after)) :
    Finds Accepts t start (start + before.length) found := by
  obtain ⟨rest, hsplit, hrest⟩ := eq_append_of_search h
  have hdrop : t.drop (start + before.length) = rest := by
    rw [← List.drop_drop, hsplit, List.drop_left]
  have hlength := congrArg List.length hsplit
  rw [List.length_drop, List.length_append] at hlength
  refine ⟨Nat.le_add_right _ _, by omega, ?_, fun earlier hstart hlt other hother => ?_⟩
  · rw [hdrop]
    exact (haccepts rest found).mpr ⟨after, hrest⟩
  · -- What is accepted earlier would have ended the search before this place.
    obtain ⟨after', hrecognise⟩ := (haccepts _ other).mp hother
    rw [← Nat.add_sub_cancel' hstart, ← List.drop_drop] at hrecognise
    obtain ⟨before', found', hsearch, hle'⟩ := exists_search_drop hrecognise
    obtain ⟨rfl, -⟩ := Prod.mk.inj (Option.some.inj (h.symm.trans hsearch))
    omega

/-- When a search unit by unit finds nothing, there is nothing to find. -/
theorem not_finds_of_search (h : search recognise (t.drop start) = none) (place : Nat)
    (found : Text) : ¬ Finds Accepts t start place found := by
  intro hfinds
  obtain ⟨after', hrecognise⟩ := (haccepts _ found).mp hfinds.accepts
  rw [← Nat.add_sub_cancel' hfinds.start_le, ← List.drop_drop] at hrecognise
  obtain ⟨before, found', hsearch, -⟩ := exists_search_drop hrecognise
  rw [h] at hsearch
  contradiction

end

end Text

/-! ## Raw bodies -/

namespace EndTag

variable {name : Text}

/-- The end tag for a name at the start of a text. -/
def Accepts (name t tag : Text) : Prop := tag <+: t ∧ IsWritten name tag

theorem accepts_iff (hname : Tag.isName name = true) (hlower : name.IsLowerCase) (t tag : Text) :
    Accepts name t tag ↔ ∃ after, read? name t = some (tag, after) := by
  constructor
  · rintro ⟨⟨after, rfl⟩, hwritten⟩
    exact ⟨after, read?_of_isWritten hname hlower hwritten after⟩
  · rintro ⟨after, hread⟩
    exact ⟨⟨after, append_of_read? hread⟩, isWritten_of_read? hread⟩

theorem Accepts.unique (hname : Tag.isName name = true) (hlower : name.IsLowerCase)
    (t tag tag' : Text) (h : Accepts name t tag) (h' : Accepts name t tag') : tag = tag' := by
  obtain ⟨after, hread⟩ := (accepts_iff hname hlower t tag).mp h
  obtain ⟨after', hread'⟩ := (accepts_iff hname hlower t tag').mp h'
  exact (Prod.mk.inj (Option.some.inj (hread.symm.trans hread'))).1

end EndTag

namespace StartTag

/-- A token that is a start tag is a proper one. -/
theorem isProper_of_ofToken? {token : Text} {tag : StartTag} (h : ofToken? token = some tag) :
    tag.IsProper := by
  cases token with
  | nil => contradiction
  | cons c rest =>
    rw [ofToken?] at h
    split at h
    · exact isProper_of_read? h
    · contradiction

end StartTag

/-! ## Events -/

namespace Event

/-- The event of a token, with the body and the end tag behind it when the token opens a raw
element. -/
def ofPieces (token body closing : Text) : Event :=
  if ("<!" : Text).isPrefixOf token || ("<?" : Text).isPrefixOf token then ignored token
  else if ("</" : Text).isPrefixOf token then endTag token (EndTag.name? (token.drop 2).dropLast)
  else
    match StartTag.ofToken? token with
    | some tag => if tag.OpensRaw then raw token tag body closing else startTag token tag
    | none => text token

/-- The end tag of a raw element, of which there is none but behind a body. -/
def closing : Event → Text
  | raw _ _ _ closing => closing
  | _ => []

theorem source_eq (e : Event) : e.source = e.token ++ e.body ++ e.closing := by
  cases e with
  | raw _ _ _ _ => rfl
  | _ => exact (List.append_nil _).symm.trans (List.append_nil _).symm

variable {token written body closing : Text} {c : CodeUnit} {tag : StartTag}

/-- What begins neither as a declaration nor as an end tag is a start tag or a text. -/
theorem ofPieces_of_skips (h : skips token = false) :
    (StartTag.ofToken? token = none → ofPieces token body closing = text token) ∧
      ∀ tag, StartTag.ofToken? token = some tag → ofPieces token body closing =
        if tag.OpensRaw then raw token tag body closing else startTag token tag := by
  have hbegins (mark : CodeUnit) (hmark : mark = bang ∨ mark = question ∨ mark = slash) :
      List.isPrefixOf [lessThan, mark] token = false := by
    rw [Bool.eq_false_iff]
    intro hbegins
    obtain ⟨more, rfl⟩ := List.isPrefixOf_iff_prefix.mp hbegins
    have hskips : skips ([lessThan, mark] ++ more) = true := by
      obtain rfl | rfl | rfl := hmark <;> rfl
    rw [h] at hskips
    contradiction
  have hbang : ("<!" : Text).isPrefixOf token = false := hbegins bang (Or.inl rfl)
  have hquestion : ("<?" : Text).isPrefixOf token = false := hbegins question (Or.inr (Or.inl rfl))
  have hslash : ("</" : Text).isPrefixOf token = false := hbegins slash (Or.inr (Or.inr rfl))
  rw [ofPieces, hbang, hquestion, hslash]
  constructor
  · intro hnone
    simp [hnone]
  · intro tag htag
    simp [htag]

theorem ofPieces_ofStartTag (h : StartTag.ofToken? written = some tag)
    (hskips : skips written = false) (after : Text) :
    ofPieces (ofStartTag written tag after).1.token (ofStartTag written tag after).1.body
      (ofStartTag written tag after).1.closing = (ofStartTag written tag after).1 := by
  unfold ofStartTag
  split
  · next hraw =>
    exact ((ofPieces_of_skips hskips).2 tag h).trans (if_pos (StartTag.opensRaw_iff.mp hraw))
  · next hraw =>
    exact ((ofPieces_of_skips hskips).2 tag h).trans (if_neg (mt StartTag.opensRaw_iff.mpr hraw))

theorem ofPieces_ofTag (inside after : Text) :
    ofPieces (ofTag inside after).1.token (ofTag inside after).1.body
      (ofTag inside after).1.closing = (ofTag inside after).1 := by
  rcases ofTag_cases inside after with
    ⟨c, rest, rfl, hc, h⟩ | ⟨rest, rfl, h⟩ | ⟨hskips, ⟨tag, htag, h⟩ | ⟨hnone, h⟩⟩
  · rw [h]
    obtain rfl | rfl := hc <;> rfl
  · rw [h]
    show endTag _ (EndTag.name? (rest ++ [greaterThan]).dropLast) = _
    rw [List.dropLast_concat]
    rfl
  · rw [h]
    exact ofPieces_ofStartTag ((StartTag.ofToken?_written _).trans htag) hskips after
  · rw [h]
    exact (ofPieces_of_skips hskips).1 ((StartTag.ofToken?_written _).trans hnone)

/-- A raw element is read as it would be from behind its start tag. -/
theorem rawBody_of_read {rest after : Text}
    (h : read c rest = (raw written tag body closing, after)) :
    rawBody tag.name (body ++ (closing ++ after)) = (body, closing, after) := by
  have htag {inside more : Text} (h : ofTag inside more = (raw written tag body closing, after)) :
      rawBody tag.name (body ++ (closing ++ after)) = (body, closing, after) := by
    rcases ofTag_cases inside more with
      ⟨_, _, _, _, h'⟩ | ⟨_, _, h'⟩ | ⟨-, ⟨tag', -, h'⟩ | ⟨-, h'⟩⟩
    · cases h.symm.trans h'
    · cases h.symm.trans h'
    · rw [h', ofStartTag] at h
      split at h
      · obtain ⟨hevent, rfl⟩ := Prod.mk.inj h
        obtain ⟨-, rfl, rfl, rfl⟩ := raw.inj hevent
        rw [append_rawBody]
      · cases h
    · cases h.symm.trans h'
  rw [read] at h
  split at h
  · split at h
    · cases h
    · split at h
      · exact htag h
      · cases h
  · cases h

/-- An event is that of its pieces. -/
theorem ofPieces_read (c : CodeUnit) (rest : Text) :
    ofPieces (read c rest).1.token (read c rest).1.body (read c rest).1.closing =
      (read c rest).1 := by
  unfold read
  split
  · next hc =>
    subst hc
    split
    · next inner after hcomment =>
      simp only [comment?, Option.bind_eq_bind, Option.bind_eq_some_iff] at hcomment
      obtain ⟨body, -, ⟨inner', after'⟩, -, heq⟩ := hcomment
      obtain ⟨rfl, -⟩ := Prod.mk.inj (Option.some.inj heq)
      rfl
    · split
      · exact ofPieces_ofTag _ _
      · rfl
  · next hc =>
    refine (ofPieces_of_skips (skips_of_ne hc _)).1 ?_
    rw [StartTag.ofToken?, if_neg fun h => hc h.1]

end Event

/-! ## Turns -/

/-- What one turn of the loop takes. -/
structure Turn where
  /-- The place at which the token is found. -/
  start : Nat
  token : Text
  /-- The body of a raw element that the token opens. -/
  body : Text
  /-- The end tag of the raw element, which is empty when there is none. -/
  closing : Text

namespace Turn

/-- All that the turn takes of the markup. -/
def source (turn : Turn) : Text := turn.token ++ turn.body ++ turn.closing

/-- The event that the turn adds to the tree. -/
def event (turn : Turn) : Event := .ofPieces turn.token turn.body turn.closing

/-- What is taken behind a token that ends at `stop`, and the index from which the loop goes on. The
end tag of a raw element is looked for, and the body is what comes before it, or all that is
left. -/
inductive Resumes (markup token : Text) (stop : Nat) : Text → Text → Nat → Prop
  /-- The token opens no raw element. -/
  | plain (h : ∀ tag, StartTag.ofToken? token = some tag → ¬ tag.OpensRaw) :
      Resumes markup token stop [] [] stop
  /-- The raw element has an end tag. -/
  | closed {tag : StartTag} {place : Nat} {closing : Text}
      (htag : StartTag.ofToken? token = some tag) (hraw : tag.OpensRaw)
      (hfinds : markup.Finds (EndTag.Accepts tag.name) stop place closing) :
      Resumes markup token stop (markup.slice stop place) closing (place + closing.length)
  /-- The raw element has no end tag. -/
  | unclosed {tag : StartTag} (htag : StartTag.ofToken? token = some tag)
      (hraw : tag.OpensRaw)
      (hnone : ∀ place closing, ¬ markup.Finds (EndTag.Accepts tag.name) stop place closing) :
      Resumes markup token stop (markup.drop stop) [] markup.length

/-- The loop, from an index and a tree to the tree at its end, by the turns that it takes. It ends
when no token is found. -/
inductive Loop (keepWhitespace : Bool) (markup : Text) :
    Nat → Builder → List Turn → Builder → Prop
  | done {index : Nat} {b : Builder}
      (hnone : ∀ place token,
        ¬ markup.Finds (Alternative.Choice Event.pattern) index place token) :
      Loop keepWhitespace markup index b [] b
  | turn {index next : Nat} {b b' : Builder} {turn : Turn} {turns : List Turn}
      (hfinds : markup.Finds (Alternative.Choice Event.pattern) index turn.start turn.token)
      (hresumes : Resumes markup turn.token (turn.start + turn.token.length) turn.body turn.closing
        next)
      (hrest : Loop keepWhitespace markup next (b.add keepWhitespace turn.event) turns b') :
      Loop keepWhitespace markup index b (turn :: turns) b'

variable {markup token body closing rest : Text} {index place next stop : Nat} {c : CodeUnit}

theorem lt_length_of_drop_eq_cons (h : markup.drop index = c :: rest) : index < markup.length :=
  List.length_lt_of_drop_ne_nil (h ▸ List.cons_ne_nil c rest)

/-- **A token is found at the index, wherever the markup goes on**: that of the event there. -/
theorem finds_iff (h : markup.drop index = c :: rest) :
    markup.Finds (Alternative.Choice Event.pattern) index place token ↔
      place = index ∧ token = (Event.read c rest).1.token := by
  have hle : index ≤ markup.length := (lt_length_of_drop_eq_cons h).le
  have hfound : markup.Finds (Alternative.Choice Event.pattern) index index
      (Event.read c rest).1.token :=
    Text.finds_start hle (h ▸ Event.choice_pattern c rest)
  constructor
  · intro hfinds
    exact hfinds.unique (fun t x y hx hy => hx.unique hy) hfound
  · rintro ⟨rfl, rfl⟩
    exact hfound

/-- At the end of the markup there is no token. -/
theorem not_finds_of_drop_eq_nil (h : markup.drop index = []) (place : Nat) (token : Text) :
    ¬ markup.Finds (Alternative.Choice Event.pattern) index place token := by
  intro hfinds
  have hbegins := hfinds.accepts.exists_mem.1
  have hdrop : markup.drop place = [] := by
    rw [List.drop_eq_nil_iff] at h ⊢
    exact h.trans hfinds.start_le
  rw [hdrop, List.prefix_nil] at hbegins
  exact Event.ne_nil_of_choice_pattern hfinds.accepts hbegins

/-! ### What is taken behind a token -/

theorem resumes_plain_iff
    (hplain : ∀ tag, StartTag.ofToken? token = some tag → ¬ tag.OpensRaw) :
    Resumes markup token stop body closing next ↔ body = [] ∧ closing = [] ∧ next = stop := by
  constructor
  · intro h
    cases h with
    | plain _ => exact ⟨rfl, rfl, rfl⟩
    | closed htag hraw _ => exact absurd hraw (hplain _ htag)
    | unclosed htag hraw _ => exact absurd hraw (hplain _ htag)
  · rintro ⟨rfl, rfl, rfl⟩
    exact .plain hplain

/-- Behind a token that opens a raw element the body and the end tag are taken that an event has. -/
theorem resumes_raw_iff {tag : StartTag} (htag : StartTag.ofToken? token = some tag)
    (hraw : tag.OpensRaw) (hle : stop ≤ markup.length) :
    Resumes markup token stop body closing next ↔
      body = (Event.rawBody tag.name (markup.drop stop)).1 ∧
        closing = (Event.rawBody tag.name (markup.drop stop)).2.1 ∧
          next = stop + body.length + closing.length := by
  have hname := (StartTag.isProper_of_ofToken? htag).isName_name
  have hlower := (StartTag.isProper_of_ofToken? htag).isLowerCase_name
  have hplain (h : ∀ tag, StartTag.ofToken? token = some tag → ¬ tag.OpensRaw) : False :=
    h tag htag hraw
  have hsame {tag' : StartTag} (h : StartTag.ofToken? token = some tag') : tag = tag' :=
    Option.some.inj (htag.symm.trans h)
  rw [Event.rawBody]
  cases hsearch : Text.search (EndTag.read? tag.name) (markup.drop stop) with
  | some result =>
    obtain ⟨before, found, after⟩ := result
    -- The search of the loop ends where the one of the event does, and behind the same body.
    have hfound := Text.finds_of_search (EndTag.accepts_iff hname hlower) hle hsearch
    have hslice : markup.slice stop (stop + before.length) = before := by
      obtain ⟨rest, hsplit, -⟩ := Text.eq_append_of_search hsearch
      rw [Text.slice, List.drop_take, Nat.add_sub_cancel_left, hsplit, List.take_left]
    constructor
    · intro h
      cases h with
      | plain h => exact (hplain h).elim
      | closed htag' _ hfinds =>
        obtain rfl := hsame htag'
        obtain ⟨rfl, rfl⟩ := hfinds.unique (EndTag.Accepts.unique hname hlower) hfound
        rw [hslice]
        exact ⟨rfl, rfl, rfl⟩
      | unclosed htag' _ hnone =>
        obtain rfl := hsame htag'
        exact absurd hfound (hnone _ _)
    · rintro ⟨rfl, rfl, rfl⟩
      have hresumes := Resumes.closed htag hraw hfound
      rwa [hslice] at hresumes
  | none =>
    have hnone := Text.not_finds_of_search (EndTag.accepts_iff hname hlower) hsearch
    have hlength : markup.length = stop + (markup.drop stop).length := by
      rw [List.length_drop]
      omega
    constructor
    · intro h
      cases h with
      | plain h => exact (hplain h).elim
      | closed htag' _ hfinds =>
        obtain rfl := hsame htag'
        exact absurd hfinds (hnone _ _)
      | unclosed _ _ _ => exact ⟨rfl, rfl, hlength⟩
    · rintro ⟨rfl, rfl, rfl⟩
      have hresumes := Resumes.unclosed htag hraw hnone
      rwa [hlength] at hresumes

/-- **Behind the token of an event the loop takes the rest of the event**, and goes on from where
the event ends. -/
theorem resumes_iff (h : markup.drop index = c :: rest) :
    Resumes markup (Event.read c rest).1.token (index + (Event.read c rest).1.token.length) body
        closing next ↔
      body = (Event.read c rest).1.body ∧ closing = (Event.read c rest).1.closing ∧
        next = index + (Event.read c rest).1.source.length := by
  obtain ⟨e, after, hread⟩ : ∃ e after, Event.read c rest = (e, after) := ⟨_, _, rfl⟩
  have hagrees := Event.agrees_read c rest
  have hsource := Event.source_append_read c rest
  rw [hread] at hagrees hsource ⊢
  dsimp only at hagrees hsource ⊢
  rw [Event.source_eq, List.append_assoc, List.append_assoc] at hsource
  have hdrop : markup.drop (index + e.token.length) = e.body ++ (e.closing ++ after) := by
    rw [← List.drop_drop, h, ← hsource, List.drop_left]
  have hnone {written : Text} (h : StartTag.ofToken? written = none) :
      ∀ tag, StartTag.ofToken? written = some tag → ¬ tag.OpensRaw := by
    intro tag htag
    rw [h] at htag
    contradiction
  cases e with
  | ignored written => exact resumes_plain_iff (hnone hagrees.2)
  | text written => exact resumes_plain_iff (hnone hagrees.2)
  | endTag written name => exact resumes_plain_iff (hnone hagrees.2)
  | startTag written tag =>
    refine resumes_plain_iff fun tag' htag => ?_
    obtain rfl := Option.some.inj (hagrees.1.symm.trans htag)
    exact hagrees.2
  | raw written tag body' closing' =>
    have hle : index + written.length ≤ markup.length := by
      have hlength := congrArg List.length (h.trans hsource.symm)
      have hlt := lt_length_of_drop_eq_cons h
      rw [List.length_drop, List.length_append, Event.token] at hlength
      omega
    have hbody : Event.rawBody tag.name (markup.drop (index + written.length)) =
        (body', closing', after) := hdrop ▸ Event.rawBody_of_read hread
    refine (resumes_raw_iff hagrees.1 hagrees.2 hle).trans ?_
    rw [hbody]
    refine and_congr_right ?_
    rintro rfl
    refine and_congr_right ?_
    rintro rfl
    rw [Event.source, List.length_append, List.length_append, Nat.add_assoc, Nat.add_assoc,
      Nat.add_assoc]

/-! ### The turns of the loop -/

/-- The turns that take the given events one after the other. -/
def ofEvents : Nat → List Event → List Turn
  | _, [] => []
  | index, e :: events =>
    ⟨index, e.token, e.body, e.closing⟩ :: ofEvents (index + e.source.length) events

variable {keepWhitespace : Bool} {b b' : Builder} {turns : List Turn} {turn : Turn}

/-- **The turns of the loop are the events of the markup**, from any index on and with any tree. The
loop takes them and no others, and it ends. -/
theorem loop_iff : Loop keepWhitespace markup index b turns b' ↔
    turns = ofEvents index (Event.scan (markup.drop index)) ∧
      b' = (Event.scan (markup.drop index)).foldl (Builder.add keepWhitespace) b := by
  generalize h : markup.drop index = t
  fun_induction Event.scan t generalizing index b turns with
  | case1 =>
    constructor
    · intro hloop
      cases hloop with
      | done _ => exact ⟨rfl, rfl⟩
      | turn hfinds _ _ => exact absurd hfinds (not_finds_of_drop_eq_nil h _ _)
    · rintro ⟨rfl, rfl⟩
      exact .done (not_finds_of_drop_eq_nil h)
  | case2 c rest ih =>
    -- The next turn begins where the event ends.
    have hnext : markup.drop (index + (Event.read c rest).1.source.length) =
        (Event.read c rest).2 := by
      rw [← List.drop_drop, h, ← Event.source_append_read c rest, List.drop_left]
    have hevent : event ⟨index, (Event.read c rest).1.token, (Event.read c rest).1.body,
        (Event.read c rest).1.closing⟩ = (Event.read c rest).1 := Event.ofPieces_read c rest
    constructor
    · intro hloop
      cases hloop with
      | done hnone => exact absurd ((finds_iff h).mpr ⟨rfl, rfl⟩) (hnone _ _)
      | @turn _ next _ _ turn _ hfinds hresumes hrest =>
        obtain ⟨start, token, body, closing⟩ := turn
        obtain ⟨rfl, rfl⟩ := (finds_iff h).mp hfinds
        obtain ⟨rfl, rfl, rfl⟩ := (resumes_iff h).mp hresumes
        rw [hevent, ih hnext] at hrest
        obtain ⟨rfl, rfl⟩ := hrest
        exact ⟨rfl, rfl⟩
    · rintro ⟨rfl, rfl⟩
      refine .turn ((finds_iff h).mpr ⟨rfl, rfl⟩) ((resumes_iff h).mpr ⟨rfl, rfl, rfl⟩) ?_
      rw [hevent]
      exact (ih hnext).mpr ⟨rfl, rfl⟩

/-- No turn of the loop has an empty token. -/
theorem Loop.token_ne_nil (h : Loop keepWhitespace markup index b turns b') :
    ∀ turn ∈ turns, turn.token ≠ [] := by
  induction h with
  | done _ => exact List.forall_mem_nil _
  | turn hfinds _ _ ih =>
    exact List.forall_mem_cons.mpr ⟨Event.ne_nil_of_choice_pattern hfinds.accepts, ih⟩

theorem length_le_flatMap_source (h : ∀ turn ∈ turns, turn.token ≠ []) :
    turns.length ≤ (turns.flatMap source).length := by
  induction turns with
  | nil => exact Nat.zero_le _
  | cons turn turns ih =>
    rw [List.forall_mem_cons] at h
    have htoken := List.length_pos_iff.mpr h.1
    have hrest := ih h.2
    rw [List.flatMap_cons, List.length_append, List.length_cons, source, List.length_append,
      List.length_append]
    omega

theorem map_source_ofEvents (index : Nat) (events : List Event) :
    (ofEvents index events).map source = events.map Event.source := by
  induction events generalizing index with
  | nil => rfl
  | cons e events ih =>
    rw [ofEvents, List.map_cons, List.map_cons, ih, Event.source_eq]
    rfl

/-- A turn begins where what the turns before it have taken ends. -/
theorem start_eq_of_mem_ofEvents {events : List Event} {before after : List Turn}
    (h : ofEvents index events = before ++ turn :: after) :
    turn.start = index + (before.flatMap source).length := by
  induction events generalizing index before with
  | nil => exact absurd h.symm (List.append_ne_nil_of_right_ne_nil _ (List.cons_ne_nil _ _))
  | cons e events ih =>
    cases before with
    | nil =>
      obtain ⟨rfl, -⟩ := List.cons.inj h
      rfl
    | cons first before =>
      obtain ⟨rfl, hrest⟩ := List.cons.inj h
      rw [ih hrest, List.flatMap_cons, List.length_append, Event.source_eq, Nat.add_assoc]
      rfl

/-- **The loop ends, and its turns make up the markup**, whatever the markup is, with blanks kept or
not. There is one list of turns that it can take, which comes to an end, and leaves the tree that
the markup is read as. No token is empty, and each is found where all that has been taken before it
ends, so that nothing is passed over and nothing taken twice. -/
theorem exists_turns (markup : Text) : ∃ turns : List Turn,
    (∀ keepWhitespace, ∃ b : Builder,
      Node.parse keepWhitespace markup = .document b.finish ∧
        ∀ turns' b', Loop keepWhitespace markup 0 Builder.empty turns' b' ↔
          turns' = turns ∧ b' = b) ∧
    (∀ turn ∈ turns, turn.token ≠ []) ∧
    (∀ before turn after, turns = before ++ turn :: after →
      turn.start = (before.flatMap source).length) ∧
    turns.flatMap source = markup ∧ turns.length ≤ markup.length := by
  have hloop (keepWhitespace : Bool) (turns' : List Turn) (b' : Builder) :
      Loop keepWhitespace markup 0 Builder.empty turns' b' ↔
        turns' = ofEvents 0 (Event.scan markup) ∧
          b' = (Event.scan markup).foldl (Builder.add keepWhitespace) Builder.empty := loop_iff
  have htoken := ((hloop false _ _).mpr ⟨rfl, rfl⟩).token_ne_nil
  have hsource : (ofEvents 0 (Event.scan markup)).flatMap source = markup := by
    rw [List.flatMap_def, map_source_ofEvents, ← List.flatMap_def, Event.flatMap_source_scan]
  refine ⟨ofEvents 0 (Event.scan markup), fun keepWhitespace => ⟨_, rfl, hloop keepWhitespace⟩,
    htoken, fun before turn after h => ?_, hsource, ?_⟩
  · rw [start_eq_of_mem_ofEvents h, Nat.zero_add]
  · have hlength := length_le_flatMap_source htoken
    rwa [hsource] at hlength

end Turn

end MarkupQuery
