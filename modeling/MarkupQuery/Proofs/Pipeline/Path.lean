import MarkupQuery.Pipeline.Path
import MarkupQuery.Proofs.Text.Alphabet

/-!
# Reading the text of a path

A path whose tags are made of tag units is read back from its text, and only such texts are read:
the slashes of a step end where its tag begins, and its tag ends at the next slash.

## Main definitions

* `Step.IsValid`: whether the tag of a step can be written in a path

## Main results

* `Path.steps_eq_ok_iff`: the texts that are read are those of paths with valid steps
* `Path.read_eq_ok_iff`: so it is for a path of one step or more
-/

namespace MarkupQuery

/-- Whether the tag of a step is made of tag units. -/
def Step.IsValid (s : Step) : Prop := s.tag.IsMadeOf CodeUnit.tagUnits

instance (s : Step) : Decidable s.IsValid := inferInstanceAs (Decidable (s.tag.IsMadeOf _))

theorem Step.isValid_iff {s : Step} : s.IsValid ↔ s.tag ≠ [] ∧ ∀ c ∈ s.tag, c.isTagUnit = true := by
  rw [IsValid, Text.isMadeOf_iff CodeUnit.isTagUnit_iff, Text.isRunOf_iff]

/-! ## The slashes of a step -/

@[simp] theorem Axis.toText_child : Axis.child.toText = [CodeUnit.slash] := rfl

@[simp] theorem Axis.toText_descendant :
    Axis.descendant.toText = [CodeUnit.slash, CodeUnit.slash] := rfl

/-- The slashes that are read, and what follows them, make up the text. -/
theorem Axis.toText_append_read (t : Text) :
    (Axis.read t).1.toText ++ (Axis.read t).2 = CodeUnit.slash :: t := by
  cases t with
  | nil => rfl
  | cons c rest =>
    rw [Axis.read]
    split
    · next h => simp [h]
    · simp

/-- The slashes of an axis are read back when no further slash follows. -/
theorem Axis.read_toText_append (a : Axis) {t rest : Text}
    (ht : t.head? ≠ some CodeUnit.slash) (h : CodeUnit.slash :: rest = a.toText ++ t) :
    Axis.read rest = (a, t) := by
  cases a with
  | child =>
    obtain rfl : rest = t := by simpa using h
    cases rest with
    | nil => rfl
    | cons c rest =>
      have hc : c ≠ CodeUnit.slash := by simpa using ht
      rw [Axis.read, if_neg hc]
  | descendant =>
    obtain rfl : rest = CodeUnit.slash :: t := by simpa using h
    rw [Axis.read, if_pos rfl]

theorem Axis.exists_toText_eq_cons (a : Axis) : ∃ t, a.toText = CodeUnit.slash :: t := by
  cases a with
  | child => exact ⟨[], rfl⟩
  | descendant => exact ⟨[CodeUnit.slash], rfl⟩

/-- A step begins with a slash. -/
theorem Step.exists_toText_eq_cons (s : Step) : ∃ t, s.toText = CodeUnit.slash :: t := by
  obtain ⟨t, ht⟩ := s.axis.exists_toText_eq_cons
  exact ⟨t ++ s.tag, by rw [Step.toText, ht, List.cons_append]⟩

/-- The slashes of a valid step are read, and its tag is left in front of what follows: the tag is
not empty and holds no slash. -/
theorem Step.IsValid.read_axis {s : Step} (hs : s.IsValid) {rest t : Text}
    (h : CodeUnit.slash :: rest = s.toText ++ t) : Axis.read rest = (s.axis, s.tag ++ t) := by
  obtain ⟨hne, hall⟩ := Step.isValid_iff.mp hs
  have hhead : (s.tag ++ t).head? ≠ some CodeUnit.slash := by
    intro hslash
    obtain ⟨c, tag, htag⟩ := List.exists_cons_of_ne_nil hne
    have hc := hall c (by simp [htag])
    rw [htag] at hslash
    obtain rfl : c = CodeUnit.slash := by simpa using hslash
    exact absurd hc (by decide)
  exact Axis.read_toText_append s.axis hhead (h.trans (List.append_assoc _ _ _))

/-! ## Paths -/

namespace Path

@[simp] theorem toText_nil : toText [] = [] := rfl

@[simp] theorem toText_cons (s : Step) (p : Path) : toText (s :: p) = s.toText ++ toText p := rfl

/-- A tag ends at the slash of the next step. -/
theorem stopsAt_toText_cons (s : Step) (p : Path) (rest : Text) :
    Text.StopsAt CodeUnit.isTagUnit (toText (s :: p) ++ rest) := by
  obtain ⟨t, ht⟩ := s.exists_toText_eq_cons
  rw [toText_cons, ht, List.cons_append, List.cons_append, Text.stopsAt_cons]
  decide

/-- After the tag of a step comes the end of the text, or a slash: the tag ends there. -/
theorem stopsAt_toText (p : Path) : Text.StopsAt CodeUnit.isTagUnit (toText p) := by
  cases p with
  | nil => simp
  | cons s p => simpa using stopsAt_toText_cons s p []

/-- A valid step in front of a path is read, and then the path. -/
theorem steps_toText_cons {s : Step} (hs : s.IsValid) (p : Path) :
    steps (toText (s :: p)) = (steps (toText p)).map (s :: ·) := by
  obtain ⟨hne, hall⟩ := Step.isValid_iff.mp hs
  obtain ⟨rest, hrest⟩ := s.exists_toText_eq_cons
  have htext : CodeUnit.slash :: (rest ++ toText p) = s.toText ++ toText p := by
    rw [hrest, List.cons_append]
  rw [toText_cons, ← htext, steps, if_pos rfl, hs.read_axis htext]
  simp only [Text.takeWhile_run hall (stopsAt_toText p), Text.dropWhile_run hall (stopsAt_toText p),
    List.isEmpty_iff, hne, if_false]

/-- What is read are valid steps that make up the text. -/
theorem toText_of_steps {t : Text} {p : Path} (h : steps t = .ok p) :
    toText p = t ∧ ∀ s ∈ p, s.IsValid := by
  induction hn : t.length using Nat.strongRecOn generalizing t p with
  | ind n ih =>
    cases t with
    | nil =>
      rw [steps] at h
      obtain rfl : [] = p := by simpa using h
      exact ⟨rfl, by simp⟩
    | cons c rest =>
      rw [steps] at h
      split at h
      · next hc =>
        simp only at h
        split at h
        · exact absurd h (by simp)
        · next hne =>
          cases hmore : steps ((Axis.read rest).2.dropWhile CodeUnit.isTagUnit) with
          | error e => simp [hmore, Except.map] at h
          | ok q =>
            obtain rfl : _ :: q = p := by simpa [hmore, Except.map] using h
            have hlength := Axis.length_read rest
            have hle := Text.length_dropWhile_le CodeUnit.isTagUnit (Axis.read rest).2
            obtain ⟨hq, hvalid⟩ :=
              ih _ (by rw [← hn, List.length_cons]; omega) hmore rfl
            constructor
            · rw [toText_cons, Step.toText, hq, List.append_assoc,
                List.takeWhile_append_dropWhile, Axis.toText_append_read, hc]
            · intro s hs
              rcases List.mem_cons.mp hs with rfl | hs
              · exact Step.isValid_iff.mpr
                  ⟨by simpa using hne, List.all_eq_true.mp List.all_takeWhile⟩
              · exact hvalid s hs
      · exact absurd h (by simp)

/-- The texts that are read are those of paths with valid steps. -/
theorem steps_eq_ok_iff {t : Text} {p : Path} :
    steps t = .ok p ↔ t = toText p ∧ ∀ s ∈ p, s.IsValid := by
  constructor
  · intro h
    obtain ⟨ht, hvalid⟩ := toText_of_steps h
    exact ⟨ht.symm, hvalid⟩
  · rintro ⟨rfl, hvalid⟩
    induction p with
    | nil => rw [toText_nil, steps]
    | cons s p ih =>
      rw [steps_toText_cons (hvalid s List.mem_cons_self),
        ih fun s' hs' => hvalid s' (List.mem_cons_of_mem s hs')]
      rfl

theorem toText_eq_nil_iff {p : Path} : toText p = [] ↔ p = [] := by
  cases p with
  | nil => simp
  | cons s p =>
    obtain ⟨t, ht⟩ := s.exists_toText_eq_cons
    simp [ht]

/-- The texts that are read as a path are those of paths with one valid step or more. -/
theorem read_eq_ok_iff {t : Text} {p : Path} :
    read t = .ok p ↔ t = toText p ∧ p ≠ [] ∧ ∀ s ∈ p, s.IsValid := by
  rw [read]
  split
  · next h =>
    obtain rfl : t = [] := by simpa using h
    simp only [reduceCtorEq, false_iff, not_and]
    intro hp hne
    exact absurd (toText_eq_nil_iff.mp hp.symm) hne
  · next h =>
    rw [steps_eq_ok_iff]
    constructor
    · rintro ⟨rfl, hvalid⟩
      exact ⟨rfl, fun hp => h (by simp [hp]), hvalid⟩
    · rintro ⟨rfl, -, hvalid⟩
      exact ⟨rfl, hvalid⟩

end Path

end MarkupQuery
