import MarkupQuery.Text.Basic

/-!
# Runs of units

Names, numbers and literals are read as the longest run of units of some class. A run of that
class is read whole exactly when what follows it does not go on with the class.

## Main definitions

* `Text.StopsAt`: a text does not begin with a unit of a class

## Main results

* `Text.takeWhile_run`, `Text.dropWhile_run`: a run is cut off where it stops
* `Text.takeWhile_append_of_stop`, `Text.dropWhile_append_of_stop`: a run that stops within a text
  is cut off alike in front of any other
-/

namespace MarkupQuery

namespace Text

variable {p : CodeUnit → Bool}

theorem isRunOf_iff {t : Text} : t.isRunOf p = true ↔ t ≠ [] ∧ ∀ c ∈ t, p c = true := by
  simp [isRunOf]

/-- The text does not begin with a unit in `p`. -/
def StopsAt (p : CodeUnit → Bool) (t : Text) : Prop := ∀ c ∈ t.head?, p c = false

@[simp] theorem stopsAt_nil : StopsAt p [] := by simp [StopsAt]

@[simp] theorem stopsAt_cons {c : CodeUnit} {t : Text} : StopsAt p (c :: t) ↔ p c = false := by
  simp [StopsAt]

/-- A text without a unit is a run of other units. -/
theorem bne_of_notMem {mark : CodeUnit} {t : Text} (h : mark ∉ t) :
    ∀ c ∈ t, (c != mark) = true := by
  intro c hc
  rw [bne_iff_ne]
  rintro rfl
  exact h hc

theorem stopsAt_bne (mark : CodeUnit) (t : Text) : StopsAt (· != mark) (mark :: t) := by
  rw [stopsAt_cons, bne_self_eq_false]

/-- A run is read up to where it stops. -/
theorem takeWhile_run {run rest : Text} (hrun : ∀ c ∈ run, p c = true) (hrest : StopsAt p rest) :
    (run ++ rest).takeWhile p = run := by
  rw [List.takeWhile_append_of_pos hrun]
  cases rest with
  | nil => simp
  | cons c rest =>
    rw [List.takeWhile_cons_of_neg (by simpa using hrest), List.append_nil]

/-- What follows a run is left. -/
theorem dropWhile_run {run rest : Text} (hrun : ∀ c ∈ run, p c = true) (hrest : StopsAt p rest) :
    (run ++ rest).dropWhile p = rest := by
  rw [List.dropWhile_append_of_pos hrun]
  cases rest with
  | nil => simp
  | cons c rest => rw [List.dropWhile_cons_of_neg (by simpa using hrest)]

/-- What is left after a run does not go on with it. -/
theorem stopsAt_dropWhile (p : CodeUnit → Bool) (t : Text) : StopsAt p (t.dropWhile p) := by
  intro c hc
  have := List.head?_dropWhile_not p t
  rw [Option.mem_def.mp hc] at this
  simpa using this

/-- A run that stops within a text, or at what follows the text, is the same in front of it. -/
theorem takeWhile_append_of_stop {t rest : Text} (h : t.dropWhile p = [] → StopsAt p rest) :
    (t ++ rest).takeWhile p = t.takeWhile p := by
  have hsplit := List.takeWhile_append_dropWhile (p := p) (l := t)
  have hrun : ∀ c ∈ t.takeWhile p, p c = true := List.all_eq_true.mp List.all_takeWhile
  have hstop : StopsAt p (t.dropWhile p ++ rest) := by
    cases hdrop : t.dropWhile p with
    | nil => exact h hdrop
    | cons c after =>
      have := stopsAt_dropWhile p t
      rwa [hdrop] at this
  have htake := takeWhile_run hrun hstop
  rwa [← List.append_assoc, hsplit] at htake

theorem dropWhile_append_of_stop {t rest : Text} (h : t.dropWhile p = [] → StopsAt p rest) :
    (t ++ rest).dropWhile p = t.dropWhile p ++ rest := by
  have hsplit := List.takeWhile_append_dropWhile (p := p) (l := t ++ rest)
  have hsplit' := List.takeWhile_append_dropWhile (p := p) (l := t)
  rw [takeWhile_append_of_stop h] at hsplit
  rw [← List.append_right_inj (t.takeWhile p), hsplit, ← List.append_assoc, hsplit']

theorem stopsAt_of_forall {t : Text} (h : ∀ c ∈ t, p c = false) : StopsAt p t := by
  intro c hc
  exact h c (List.mem_of_mem_head? hc)

/-- Nothing is cut off where the class does not begin. -/
theorem dropWhile_of_stopsAt {t : Text} (h : StopsAt p t) : t.dropWhile p = t :=
  dropWhile_run (fun _ hc => absurd hc List.not_mem_nil) h

/-- A text without units of the class has none at its ends. -/
theorem trim_of_forall {t : Text} (h : ∀ c ∈ t, p c = false) : t.trim p = t := by
  have hreverse : ∀ c ∈ t.reverse, p c = false := fun c hc => h c (List.mem_reverse.mp hc)
  rw [trim, dropWhile_of_stopsAt (stopsAt_of_forall h),
    dropWhile_of_stopsAt (stopsAt_of_forall hreverse), List.reverse_reverse]

theorem dropWhile_of_forall {t : Text} (h : ∀ c ∈ t, p c = true) : t.dropWhile p = [] := by
  have := dropWhile_run h (stopsAt_nil : StopsAt p [])
  rwa [List.append_nil] at this

/-- Units of the class at both ends of a text are taken off. -/
theorem trim_append {s t u : Text} (hs : ∀ c ∈ s, p c = true) (hu : ∀ c ∈ u, p c = true) :
    (s ++ t ++ u).trim p = t.trim p := by
  have hreverse : ∀ c ∈ u.reverse, p c = true := fun c hc => hu c (List.mem_reverse.mp hc)
  rw [trim, trim, List.append_assoc, List.dropWhile_append_of_pos hs, List.dropWhile_append]
  split
  · next hnil =>
    -- There is nothing but units of the class.
    rw [List.isEmpty_iff.mp hnil, dropWhile_of_forall hu]
  · rw [List.reverse_append, List.dropWhile_append_of_pos hreverse]

end Text

end MarkupQuery
