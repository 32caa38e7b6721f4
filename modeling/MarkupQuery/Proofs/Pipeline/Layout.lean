import Mathlib.Logic.Relation
import MarkupQuery.Proofs.Pipeline.Pipe

/-!
# Layout

The layout of a query is what stands between its tokens, and it means nothing. Two texts one after
the other have the tokens of the one and then those of the other, provided that no token at the end
of the one goes on into the other. Layout ends every token, so that it may be put anywhere but into
a token. It may be taken away as well where a literal or a punctuation mark stands on one side of
it, for these are told from anything next to them. Tokens that are moved are read as before: the
pipeline is the same, or the query is refused with the same code and for the same reason.

## Main definitions

* `Lexeme.StandsAlone`: the lexemes that nothing next to them goes on with
* `Text.LayoutEdit`: one change of the layout of a text

## Main results

* `Token.IsMunch.append`, `Token.IsMunch.of_append`: the tokens of two texts one after the other
* `Text.LayoutEdit.exists_tokens`: a change of layout moves tokens and changes none
* `Pipeline.mapError_cause_compile`: what is read depends on the lexemes alone
* `Pipeline.compile_of_layoutEdits`: a query is read as before when its layout is changed
-/

namespace MarkupQuery

/-! ## Lexemes that stand alone -/

namespace Lexeme

variable {l : Lexeme} {after : Text}

/-- A literal or a punctuation mark: nothing next to it goes on with it. -/
def StandsAlone : Lexeme → Prop
  | operator _ => False
  | bare _ => False
  | _ => True

/-- It stands in front of anything. -/
theorem StandsAlone.standsBefore (h : l.StandsAlone) (hl : l.StandsBefore after) (other : Text) :
    l.StandsBefore other := by
  cases hl with
  | literal hcontent => exact .literal hcontent
  | operator => exact h.elim
  | bare => exact h.elim
  | lparen => exact .lparen
  | rparen => exact .rparen
  | comma => exact .comma
  | pipe => exact .pipe

/-- And it begins with a unit that ends whatever stands before it. -/
theorem StandsAlone.exists_spelling_eq_cons (h : l.StandsAlone) :
    ∃ c rest, l.spelling = c :: rest ∧ c ∈ delimiters := by
  cases l with
  | operator => exact h.elim
  | bare => exact h.elim
  | literal content => exact ⟨CodeUnit.backtick, _, rfl, by decide⟩
  | lparen | rparen | comma | pipe => exact ⟨_, _, rfl, by decide⟩

theorem layout_subset_delimiters : CodeUnit.layout ⊆ delimiters := by decide

end Lexeme

/-! ## Texts one after the other -/

namespace Token

/-- Tokens that start behind a position are moved there from the start of a text. -/
theorem exists_map_shift {tokens : List Token} {n : Nat}
    (h : ∀ t ∈ tokens, n ≤ t.start ∧ n ≤ t.stop) :
    ∃ earlier : List Token, earlier.map (shift n) = tokens := by
  refine ⟨tokens.map fun t => ⟨t.lexeme, t.start - n, t.stop - n⟩, ?_⟩
  rw [List.map_map]
  refine (List.map_congr_left fun t ht => ?_).trans (List.map_id tokens)
  obtain ⟨hstart, hstop⟩ := h t ht
  simp [shift, Nat.sub_add_cancel hstart, Nat.sub_add_cancel hstop]

/-- Tokens that are moved twice are moved by the sum. -/
theorem map_shift_map_shift (m n : Nat) (tokens : List Token) :
    (tokens.map (shift m)).map (shift n) = tokens.map (shift (n + m)) := by
  rw [List.map_map]
  refine List.map_congr_left fun t _ => ?_
  simp only [Function.comp, shift, Nat.add_assoc, Nat.add_comm m]

/-- Moved tokens have the same lexemes. -/
theorem map_lexeme_shift (n : Nat) (tokens : List Token) :
    (tokens.map (shift n)).map lexeme = tokens.map lexeme := by
  rw [List.map_map]
  rfl

namespace IsMunch

variable {a b whole : Text} {front back tokens : List Token}

/-- A text of nothing but layout has no tokens. -/
theorem of_forall_mem_layout (h : ∀ c ∈ a, c ∈ CodeUnit.layout) : IsMunch a 0 [] :=
  ⟨.nil, nofun, fun _ c _ hc _ => h c (List.mem_of_getElem? hc), nofun, nofun⟩

/-- **Two texts one after the other have the tokens of the one and, at later positions, those of the
other**, when the tokens of the one can stand in front of the other. -/
theorem append (ha : IsMunch a 0 front) (hb : IsMunch b 0 back)
    (hseam : ∀ t ∈ front, t.lexeme.StandsBefore (a.drop t.stop ++ b)) :
    IsMunch (a ++ b) 0 (front ++ back.map (shift a.length)) := by
  have hstop : ∀ t ∈ front, t.stop ≤ a.length := fun t ht => (ha.within t ht).2.2
  constructor
  case apart =>
    refine List.pairwise_append.mpr ⟨ha.apart, List.pairwise_map.mpr ?_, ?_⟩
    · exact hb.apart.imp fun h => Nat.add_le_add_right h a.length
    · intro t ht u hu
      obtain ⟨v, -, rfl⟩ := List.mem_map.mp hu
      exact Nat.le_trans (hstop t ht) (Nat.le_add_left _ _)
  case within =>
    simp only [List.forall_mem_append, List.forall_mem_map, List.length_append, start_shift,
      stop_shift]
    constructor
    · intro t ht
      have := ha.within t ht
      omega
    · intro t ht
      have := hb.within t ht
      omega
  case layout =>
    intro i c _ hc huncovered
    rw [List.forall_mem_append, List.forall_mem_map] at huncovered
    by_cases hi : i < a.length
    · rw [List.getElem?_append_left hi] at hc
      exact ha.layout i c (Nat.zero_le i) hc huncovered.1
    · have hi := Nat.le_of_not_lt hi
      rw [List.getElem?_append_right hi] at hc
      refine hb.layout (i - a.length) c (Nat.zero_le _) hc fun t ht hcovers => ?_
      exact huncovered.2 t ht
        ⟨Nat.add_le_of_le_sub hi hcovers.1, (Nat.sub_lt_iff_lt_add hi).mp hcovers.2⟩
  case spelled =>
    rw [List.forall_mem_append, List.forall_mem_map]
    constructor
    · intro t ht
      rw [Text.slice_append_left (hstop t ht), ha.spelled t ht]
    · intro t ht
      rw [start_shift, stop_shift, Text.slice_append_right, hb.spelled t ht, lexeme_shift]
  case formed =>
    rw [List.forall_mem_append, List.forall_mem_map]
    constructor
    · intro t ht
      rw [List.drop_append_of_le_length (hstop t ht)]
      exact hseam t ht
    · intro t ht
      rw [stop_shift, Nat.add_comm, List.drop_length_add_append]
      exact hb.formed t ht

/-- A text that is cut between two tokens has the tokens of its parts. -/
theorem of_append (h : IsMunch (a ++ b) 0 (front ++ back.map (shift a.length)))
    (hstop : ∀ t ∈ front, t.stop ≤ a.length) :
    IsMunch a 0 front ∧ IsMunch b 0 back ∧
      ∀ t ∈ front, t.lexeme.StandsBefore (a.drop t.stop ++ b) := by
  obtain ⟨hfront, hback, -⟩ := List.pairwise_append.mp h.apart
  have hwithin := h.within
  have hspelled := h.spelled
  have hformed := h.formed
  rw [List.forall_mem_append, List.forall_mem_map] at hwithin hspelled hformed
  have hseam : ∀ t ∈ front, t.lexeme.StandsBefore (a.drop t.stop ++ b) := by
    intro t ht
    have := hformed.1 t ht
    rwa [List.drop_append_of_le_length (hstop t ht)] at this
  refine ⟨?_, ?_, hseam⟩
  · constructor
    case apart => exact hfront
    case within =>
      intro t ht
      have := hwithin.1 t ht
      exact ⟨this.1, this.2.1, hstop t ht⟩
    case layout =>
      intro i c _ hc huncovered
      have hi := (List.getElem?_eq_some_iff.mp hc).1
      refine h.layout i c (Nat.zero_le i) ((List.getElem?_append_left hi).trans hc) ?_
      rw [List.forall_mem_append, List.forall_mem_map]
      refine ⟨huncovered, fun t _ hcovers => ?_⟩
      have : t.start + a.length ≤ i := hcovers.1
      omega
    case spelled =>
      intro t ht
      rw [← hspelled.1 t ht, Text.slice_append_left (hstop t ht)]
    case formed => exact fun t ht => (hseam t ht).of_append
  · constructor
    case apart => exact (List.pairwise_map.mp hback).imp fun h => Nat.le_of_add_le_add_right h
    case within =>
      intro t ht
      have := hwithin.2 t ht
      rw [start_shift, stop_shift, List.length_append] at this
      omega
    case layout =>
      intro i c _ hc huncovered
      have hi : (a ++ b)[i + a.length]? = some c := by
        rwa [List.getElem?_append_right (Nat.le_add_left _ _), Nat.add_sub_cancel]
      refine h.layout (i + a.length) c (Nat.zero_le _) hi ?_
      rw [List.forall_mem_append, List.forall_mem_map]
      constructor
      · intro t ht hcovers
        have := hcovers.2
        have := hstop t ht
        omega
      · intro t ht hcovers
        exact huncovered t ht
          ⟨Nat.le_of_add_le_add_right hcovers.1, Nat.lt_of_add_lt_add_right hcovers.2⟩
    case spelled =>
      intro t ht
      rw [← Text.slice_append_right a b]
      exact hspelled.2 t ht
    case formed =>
      intro t ht
      have := hformed.2 t ht
      rwa [stop_shift, Nat.add_comm, List.drop_length_add_append] at this

/-- The tokens of a text are those before and those behind any place that lies in none of them. -/
theorem exists_eq_append {start n : Nat} (h : IsMunch whole start tokens)
    (hplace : ∀ t ∈ tokens, t.stop ≤ n ∨ n ≤ t.start) :
    ∃ front back : List Token, tokens = front ++ back.map (shift n) ∧
      ∀ t ∈ front, t.stop ≤ n := by
  induction tokens generalizing start with
  | nil => exact ⟨[], [], rfl, nofun⟩
  | cons t tokens ih =>
    rw [List.forall_mem_cons] at hplace
    rcases hplace.1 with hstop | hstart
    · obtain ⟨front, back, rfl, hfront⟩ := ih h.tail hplace.2
      exact ⟨t :: front, back, rfl, List.forall_mem_cons.mpr ⟨hstop, hfront⟩⟩
    · -- All tokens from here on start behind the place.
      have hbehind : ∀ u ∈ t :: tokens, n ≤ u.start ∧ n ≤ u.stop := by
        intro u hu
        have hu' := h.within u hu
        rcases List.mem_cons.mp hu with rfl | hu
        · omega
        · have := h.within t List.mem_cons_self
          have := (List.pairwise_cons.mp h.apart).1 u hu
          omega
      obtain ⟨back, hback⟩ := exists_map_shift hbehind
      exact ⟨[], back, hback.symm, nofun⟩

/-- In front of a lexeme that stands alone, or of the layout before it, every token ends. -/
theorem head_mem_delimiters {u : Token} (h : IsMunch b 0 (u :: back))
    (hu : u.lexeme.StandsAlone) : ∀ c ∈ b.head?, c ∈ Lexeme.delimiters := by
  intro c hc
  by_cases hstart : u.start = 0
  · obtain ⟨d, rest, hspelling, hd⟩ := hu.exists_spelling_eq_cons
    have happend := h.spelling_append List.mem_cons_self
    rw [hstart, List.drop_zero, hspelling] at happend
    rw [← happend] at hc
    exact Option.some.inj hc ▸ hd
  · refine Lexeme.layout_subset_delimiters (CodeUnit.isLayout_iff.mp (h.isLayout_before c ?_))
    refine List.mem_of_mem_head? ?_
    rwa [List.head?_take, if_neg hstart]

end IsMunch

end Token

/-- The tokens of a text are its maximal munch. -/
theorem tokenize_eq_ok_iff_isMunch_zero {text : Text} {tokens : List Token} :
    tokenize text = .ok tokens ↔ Token.IsMunch text 0 tokens := by
  rw [tokenize, mapError_eq_ok_iff]
  exact Token.scan_eq_ok_iff_isMunch List.drop_zero

/-! ## Changes of layout -/

/-- One change of the layout of a text. -/
inductive Text.LayoutEdit : Text → Text → Prop
  /-- Layout is put at a place that lies in no token. -/
  | insert {a b run : Text} {tokens : List Token} (htokens : tokenize (a ++ b) = .ok tokens)
      (hplace : ∀ t ∈ tokens, t.stop ≤ a.length ∨ a.length ≤ t.start)
      (hrun : ∀ c ∈ run, c ∈ CodeUnit.layout) : LayoutEdit (a ++ b) (a ++ (run ++ b))
  /-- Layout, which is all that stands between two tokens, is taken away there, when one of the two
  stands alone. -/
  | delete {a b run : Text} {front back : List Token} {t u : Token}
      (htokens : tokenize (a ++ (run ++ b)) = .ok (front ++ t :: u :: back))
      (hstop : t.stop ≤ a.length) (hstart : a.length + run.length ≤ u.start)
      (halone : t.lexeme.StandsAlone ∨ u.lexeme.StandsAlone) :
      LayoutEdit (a ++ (run ++ b)) (a ++ b)

namespace Token.IsMunch

variable {a b run : Text} {front back : List Token} {t u : Token}

/-- Layout that is put between two parts of a text moves the tokens of the second. -/
theorem insert_layout (h : IsMunch (a ++ b) 0 (front ++ back.map (shift a.length)))
    (hstop : ∀ t ∈ front, t.stop ≤ a.length) (hrun : ∀ c ∈ run, c ∈ CodeUnit.layout) :
    IsMunch (a ++ (run ++ b)) 0 (front ++ back.map (shift (a.length + run.length))) := by
  obtain ⟨ha, hb, hseam⟩ := h.of_append hstop
  rw [← map_shift_map_shift]
  refine ha.append ((of_forall_mem_layout hrun).append hb nofun) fun t ht => ?_
  -- Behind a token comes what came before, or layout.
  refine (hseam t ht).of_head fun c hc => ?_
  rcases hdrop : a.drop t.stop with _ | ⟨d, more⟩
  · rw [hdrop, List.nil_append] at hc
    rcases run with _ | ⟨e, run⟩
    · exact .inl hc
    · obtain rfl : e = c := Option.some.inj hc
      exact .inr (Lexeme.layout_subset_delimiters (hrun e List.mem_cons_self))
  · rw [hdrop] at hc
    exact .inl hc

/-- Layout that is taken away between two tokens moves the tokens behind it, when one of the two
stands alone. -/
theorem delete_layout
    (h : IsMunch (a ++ (run ++ b)) 0
      (front ++ [t] ++ (u :: back).map (shift (a.length + run.length))))
    (hstop : t.stop ≤ a.length) (halone : t.lexeme.StandsAlone ∨ u.lexeme.StandsAlone) :
    IsMunch (a ++ b) 0 (front ++ [t] ++ (u :: back).map (shift a.length)) := by
  rw [← map_shift_map_shift] at h
  have hfront : ∀ x ∈ front, x.stop < a.length := by
    intro x hx
    have hbefore := (List.pairwise_append.mp (List.pairwise_append.mp h.apart).1).2.2 x hx t
      List.mem_cons_self
    have ht := h.within t (by simp)
    omega
  have hle : ∀ x ∈ front ++ [t], x.stop ≤ a.length := by
    rw [List.forall_mem_append, List.forall_mem_singleton]
    exact ⟨fun x hx => Nat.le_of_lt (hfront x hx), hstop⟩
  obtain ⟨ha, hrest, hseam⟩ := h.of_append hle
  obtain ⟨-, hb, -⟩ : IsMunch run 0 [] ∧ IsMunch b 0 (u :: back) ∧ _ := of_append hrest nofun
  refine ha.append hb ?_
  rw [List.forall_mem_append, List.forall_mem_singleton] at hseam ⊢
  constructor
  · -- Behind the other tokens there is the last one at least.
    intro x hx
    refine (hseam.1 x hx).of_head fun c hc => .inl ?_
    obtain ⟨d, more, hdrop⟩ := List.exists_cons_of_ne_nil
      (mt List.drop_eq_nil_iff.mp (Nat.not_le.mpr (hfront x hx)))
    rwa [hdrop] at hc ⊢
  · rcases halone with ht | hu
    · exact ht.standsBefore hseam.2 _
    · -- If the first token ends at the layout, the second or layout before it follows.
      refine hseam.2.of_head fun c hc => ?_
      rcases hdrop : a.drop t.stop with _ | ⟨d, more⟩
      · rw [hdrop, List.nil_append] at hc
        exact .inr (hb.head_mem_delimiters hu c hc)
      · rw [hdrop] at hc
        exact .inl hc

end Token.IsMunch

/-- **A change of layout moves tokens and changes none.** -/
theorem Text.LayoutEdit.exists_tokens {t t' : Text} (h : LayoutEdit t t') :
    ∃ tokens tokens', tokenize t = .ok tokens ∧ tokenize t' = .ok tokens' ∧
      tokens'.map Token.lexeme = tokens.map Token.lexeme := by
  cases h with
  | @insert a b run tokens htokens hplace hrun =>
    have hmunch := tokenize_eq_ok_iff_isMunch_zero.mp htokens
    obtain ⟨front, back, rfl, hfront⟩ := hmunch.exists_eq_append hplace
    refine ⟨_, _, htokens,
      tokenize_eq_ok_iff_isMunch_zero.mpr (hmunch.insert_layout hfront hrun), ?_⟩
    simp only [List.map_append, Token.map_lexeme_shift]
  | @delete a b run front back x y htokens hstop hstart halone =>
    have hmunch := tokenize_eq_ok_iff_isMunch_zero.mp htokens
    rw [List.append_cons] at hmunch
    -- All that stands behind the layout has been moved behind the first part and the layout.
    have hbehind : ∀ z ∈ y :: back, a.length + run.length ≤ z.start ∧
        a.length + run.length ≤ z.stop := by
      intro z hz
      have hz' := hmunch.within z (List.mem_append_right _ hz)
      have hy := hmunch.within y (List.mem_append_right _ List.mem_cons_self)
      rcases List.mem_cons.mp hz with rfl | hz
      · omega
      · have hback := (List.pairwise_append.mp hmunch.apart).2.1
        have := (List.pairwise_cons.mp hback).1 z hz
        omega
    obtain ⟨earlier, hearlier⟩ := Token.exists_map_shift hbehind
    obtain ⟨u, back, rfl, rfl, rfl⟩ := List.map_eq_cons_iff.mp hearlier
    have hmoved := hmunch.delete_layout hstop halone
    refine ⟨_, _, htokens, tokenize_eq_ok_iff_isMunch_zero.mpr hmoved, ?_⟩
    simp only [List.map_append, List.map_cons, List.append_assoc, List.singleton_append,
      Token.map_lexeme_shift, Token.lexeme_shift]

/-! ## Lexemes decide -/

/-- Tokens with the same lexemes are the same when all positions are forgotten. -/
theorem Token.map_relocate_zero {tokens tokens' : List Token}
    (h : tokens.map lexeme = tokens'.map lexeme) :
    tokens.map (relocate fun _ => 0) = tokens'.map (relocate fun _ => 0) := by
  have hforget (ts : List Token) :
      ts.map (relocate fun _ => 0) = (ts.map lexeme).map fun l => ⟨l, 0, 0⟩ := by
    rw [List.map_map]
    rfl
  rw [hforget, hforget, h]

/-- A segment is refused for the same cause wherever its tokens stand, and in whatever text. -/
theorem Segment.mapError_cause_compile (f : Nat → Nat) (whole whole' : Text) (segment : Segment) :
    (compile whole' (segment.relocate f)).mapError (·.cause) =
      (compile whole segment).mapError (·.cause) := by
  obtain ⟨tokens, stop⟩ := segment
  cases tokens with
  | nil => rfl
  | cons first rest =>
    simp only [relocate, List.map_cons, compile, stages_relocate, mapError_mapError]
    rfl

namespace Pipeline

theorem mapError_cause_ofSegments (f : Nat → Nat) (whole whole' : Text)
    (segments : List Segment) :
    (ofSegments whole' (segments.map (Segment.relocate f))).mapError (·.cause) =
      (ofSegments whole segments).mapError (·.cause) := by
  induction segments with
  | nil => rfl
  | cons segment segments ih =>
    rw [List.map_cons, ofSegments_cons, ofSegments_cons]
    refine mapError_bind_congr (Segment.mapError_cause_compile f whole whole' segment) fun p => ?_
    exact mapError_bind_congr ih fun _ => rfl

/-- **What a text is read as depends on its lexemes alone**, and so does the cause for which it is
refused. -/
theorem mapError_cause_compile {t t' : Text} {tokens tokens' : List Token}
    (ht : tokenize t = .ok tokens) (ht' : tokenize t' = .ok tokens')
    (h : tokens'.map Token.lexeme = tokens.map Token.lexeme) :
    (compile t').mapError (·.cause) = (compile t).mapError (·.cause) := by
  -- Both are read as tokens without positions.
  have hforget {s : Text} {ts : List Token} (hs : tokenize s = .ok ts) :
      (compile s).mapError (·.cause) =
        (ofSegments [] (Segment.all 0 (ts.map (Token.relocate fun _ => 0)))).mapError
          (·.cause) := by
    rw [compile_of_tokenize hs, Segment.all_relocate (fun _ => 0) s.length,
      mapError_cause_ofSegments _ s []]
  rw [hforget ht, hforget ht', Token.map_relocate_zero h]

/-- **A query is read as before when its layout is changed**, however often. It is cut into the same
lexemes, and these are read as the same pipeline, or refused with the same code and for the same
reason. -/
theorem compile_of_layoutEdits {t t' : Text} {tokens : List Token}
    (htokens : tokenize t = .ok tokens) (h : Relation.ReflTransGen Text.LayoutEdit t t') :
    (∃ tokens', tokenize t' = .ok tokens' ∧
        tokens'.map Token.lexeme = tokens.map Token.lexeme) ∧
      (∀ p, compile t' = .ok p ↔ compile t = .ok p) ∧
      ∀ e, compile t = .error e →
        ∃ e', compile t' = .error e' ∧ e'.code = e.code ∧ e'.reason = e.reason := by
  have hsame : ∃ tokens', tokenize t' = .ok tokens' ∧
      tokens'.map Token.lexeme = tokens.map Token.lexeme := by
    induction h with
    | refl => exact ⟨tokens, htokens, rfl⟩
    | tail _ hedit ih =>
      obtain ⟨before, hbefore, hlexemes⟩ := ih
      obtain ⟨tokens₁, tokens₂, h₁, h₂, hedited⟩ := hedit.exists_tokens
      obtain rfl := Except.ok.inj (hbefore.symm.trans h₁)
      exact ⟨tokens₂, h₂, hedited.trans hlexemes⟩
  refine ⟨hsame, ?_⟩
  obtain ⟨tokens', htokens', hlexemes⟩ := hsame
  have hcause := mapError_cause_compile htokens htokens' hlexemes
  constructor
  · intro p
    rw [← mapError_eq_ok_iff (f := fun e : ParseError => e.cause), hcause, mapError_eq_ok_iff]
  · intro e he
    rw [he] at hcause
    obtain ⟨e', he', hsame⟩ := mapError_eq_error_iff.mp hcause
    exact ⟨e', he', congrArg Cause.code hsame, congrArg Cause.reason hsame⟩

/-- A blank is put behind an argument, and then the one in front of it is taken away. -/
theorem compile_of_layoutEdits_attr :
    Relation.ReflTransGen Text.LayoutEdit "#attr( `id`)" "#attr(`id` )" ∧
      compile "#attr(`id` )" = .ok [.extract (.attr "id")] := by
  have htokens : tokenize "#attr( `id`)" =
      .ok [⟨.operator "#attr", 0, 5⟩, ⟨.lparen, 5, 6⟩, ⟨.literal "id", 7, 11⟩,
        ⟨.rparen, 11, 12⟩] := by decide +kernel
  have hbetween : tokenize "#attr( `id` )" =
      .ok ([⟨.operator "#attr", 0, 5⟩] ++
        ⟨.lparen, 5, 6⟩ :: ⟨.literal "id", 7, 11⟩ :: [⟨.rparen, 12, 13⟩]) := by decide +kernel
  have hinsert : Text.LayoutEdit "#attr( `id`)" "#attr( `id` )" := by
    have hbefore : ("#attr( `id`)" : Text) = ("#attr( `id`" : Text) ++ ")" := by decide
    have hafter : ("#attr( `id` )" : Text) = "#attr( `id`" ++ ([CodeUnit.space] ++ ")") := by
      decide
    rw [hbefore] at htokens ⊢
    rw [hafter]
    exact .insert htokens (by decide) (List.forall_mem_singleton.mpr (by decide))
  have hdelete : Text.LayoutEdit "#attr( `id` )" "#attr(`id` )" := by
    have hbefore : ("#attr( `id` )" : Text) = "#attr(" ++ ([CodeUnit.space] ++ "`id` )") := by
      decide
    have hafter : ("#attr(`id` )" : Text) = ("#attr(" : Text) ++ "`id` )" := by decide
    rw [hbefore] at hbetween ⊢
    rw [hafter]
    exact .delete hbetween (by decide) (by decide) (.inl trivial)
  have hedits : Relation.ReflTransGen Text.LayoutEdit "#attr( `id`)" "#attr(`id` )" :=
    .tail (.single hinsert) hdelete
  have hread : compile "#attr( `id`)" = .ok [.extract (.attr "id")] := by decide +kernel
  obtain ⟨-, hpipeline, -⟩ := compile_of_layoutEdits htokens hedits
  exact ⟨hedits, (hpipeline _).mpr hread⟩

end Pipeline

end MarkupQuery
