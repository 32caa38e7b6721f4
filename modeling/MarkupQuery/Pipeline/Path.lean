import MarkupQuery.Pipeline.Stage
import MarkupQuery.Text.Utf16

/-!
# Path literals

A path is written as its steps in order, each a slash, or two for a descendant step, and a tag.
Reading gives the steps, or says what is wrong right after the longest part that is a path.

## Main definitions

* `Step.toText`, `Path.toText`: how a path is written
* `Path.Fault`: what is wrong with a text that is no path
* `Path.read`: the path that a text writes

## Main results

* `Axis.length_read`: reading an axis uses up only what it reads
-/

namespace MarkupQuery

/-! ## Writing -/

/-- The slash or slashes of an axis. -/
def Axis.toText : Axis → Text
  | .child => "/"
  | .descendant => "//"

/-- The text of a step: the slashes of its axis and its tag. -/
def Step.toText (s : Step) : Text := s.axis.toText ++ s.tag

/-- The text of a path: the texts of its steps. -/
def Path.toText (p : Path) : Text := p.flatMap Step.toText

/-! ## Reading -/

/-- What is wrong with a text that is no path. -/
inductive Path.Fault where
  /-- There is no step. -/
  | empty
  /-- A step does not begin with a slash. -/
  | unexpected (unit : CodeUnit)
  /-- No tag follows the slashes. -/
  | emptyTag (axis : Axis)
  deriving DecidableEq, Repr

/-- The wording of a fault. -/
def Path.Fault.reason : Path.Fault → Text
  | .empty => "Empty path"
  | .unexpected unit => ("Unexpected \"" : Text) ++ [unit] ++ "\" in path, expected \"/\" or \"//\""
  | .emptyTag axis => ("Empty tag in path after \"" : Text) ++ axis.toText ++ "\""

/-- The axis of a step whose first slash is read, and what follows the slashes. -/
def Axis.read : Text → Axis × Text
  | [] => (.child, [])
  | c :: rest => if c = CodeUnit.slash then (.descendant, rest) else (.child, c :: rest)

/-- Reading an axis uses up only what it reads. -/
theorem Axis.length_read (t : Text) : (Axis.read t).2.length ≤ t.length := by
  cases t with
  | nil => simp [Axis.read]
  | cons c rest => rw [Axis.read]; split <;> simp

/-- The steps that make up a text, of which there may be none. -/
def Path.steps : Text → Except Path.Fault Path
  | [] => .ok []
  | c :: rest =>
    if c = CodeUnit.slash then
      let axis := (Axis.read rest).1
      let tag := (Axis.read rest).2.takeWhile CodeUnit.isTagUnit
      if tag.isEmpty then .error (.emptyTag axis)
      else (Path.steps ((Axis.read rest).2.dropWhile CodeUnit.isTagUnit)).map (⟨axis, tag⟩ :: ·)
    else .error (.unexpected c)
termination_by t => t.length
decreasing_by
  have h₁ := Axis.length_read rest
  have h₂ := Text.length_dropWhile_le CodeUnit.isTagUnit (Axis.read rest).2
  simp only [List.length_cons]
  omega

/-- The path that a text writes: one step or more. -/
def Path.read (t : Text) : Except Path.Fault Path :=
  if t.isEmpty then .error .empty else Path.steps t

end MarkupQuery
