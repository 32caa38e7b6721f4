import Mathlib.Logic.Function.Iterate
import MarkupQuery.Proofs.Forest.Preorder
import MarkupQuery.Text.Utf16

/-!
# Walks

A walk is a loop: it keeps the nodes that are still to be visited on a stack, takes one off, and
puts its children on. Nothing marks a node that has been visited. A node that is reached in several
ways is visited as many times, and it is the ways down that are counted when the loop is shown to
end, not the nodes. What it lists is the recursive unfolding all the same, which has one entry for
every way down from the node that the walk begins with.

Only the children decide where a walk goes. It ends when no chain of children goes on for ever,
whatever the nodes call their parents.

## Main definitions

* `Walk`, `Walk.visit`: a walk between two visits, and a visit
* `follow`: the node that a way down leads to
* `Forest.paths`: all ways down from a node
* `Forest.ofChildren`: nodes whose parents are not asked for

## Main results

* `Walk.iterate_visit_eq_iff`: a walk ends after as many visits as it lists nodes
* `Forest.map_follow_paths`: the unfolding of a node has an entry for each way down
* `Forest.textOf_of_leaves`: where texts are leaves, the text of an element is that of its children
* `Forest.subtree_unfolds`: walks end, and list the unfolding
-/

namespace MarkupQuery

variable {ν : Type}

/-! ## The loop -/

/-- Nodes are listed as long as there are any to visit. -/
theorem Forest.walk_eq_nil_iff {F : Forest ν} {ns : List ν} : F.walk ns = [] ↔ ns = [] := by
  cases ns with
  | nil => exact iff_of_true F.walk_nil rfl
  | cons n rest =>
    rw [F.walk_cons]
    exact iff_of_false (List.cons_ne_nil _ _) (List.cons_ne_nil _ _)

/-- A walk between two visits. -/
structure Walk (ν : Type) where
  /-- The nodes that have been visited, in order. -/
  visited : List ν
  /-- The nodes that are still to be visited, the next one first. -/
  pending : List ν

namespace Walk

/-- A visit to the next node: its children are put on the nodes that are left, the last child
first. A walk without a next node stays as it is. -/
def visit (children : ν → List ν) (w : Walk ν) : Walk ν :=
  match w.pending with
  | [] => w
  | n :: rest => ⟨w.visited ++ [n], (children n).foldr List.cons rest⟩

/-- **A visit takes the first node off what is still to be listed.** -/
theorem visit_cases (F : Forest ν) (w : Walk ν) :
    w.visit F.children = w ∧ F.walk w.pending = [] ∨
      ∃ n, (w.visit F.children).visited = w.visited ++ [n] ∧
        F.walk w.pending = n :: F.walk (w.visit F.children).pending := by
  obtain ⟨visited, _ | ⟨n, rest⟩⟩ := w
  · exact Or.inl ⟨rfl, F.walk_nil⟩
  · refine Or.inr ⟨n, rfl, ?_⟩
    show F.walk (n :: rest) = n :: F.walk ((F.children n).foldr List.cons rest)
    rw [List.foldr_cons_eq_append', F.walk_cons]

/-- Along visits, what is visited and what is still to be listed make up the same list. -/
theorem iterate_visit (F : Forest ν) (w : Walk ν) (k : Nat) :
    ((visit F.children)^[k] w).visited = w.visited ++ (F.walk w.pending).take k ∧
      F.walk ((visit F.children)^[k] w).pending = (F.walk w.pending).drop k := by
  -- The first visit is taken off, and the other visits go on from the walk that it leaves.
  induction k generalizing w with
  | zero => exact ⟨(List.append_nil _).symm, rfl⟩
  | succ k ih =>
    obtain ⟨hvisited, hpending⟩ := ih (w.visit F.children)
    rw [Function.iterate_succ_apply, hvisited, hpending]
    rcases visit_cases F w with ⟨hstays, hnil⟩ | ⟨n, hn, hcons⟩
    · rw [hstays, hnil, List.take_nil, List.take_nil, List.drop_nil, List.drop_nil]
      exact ⟨rfl, rfl⟩
    · rw [hn, hcons, List.take_succ_cons, List.drop_succ_cons, List.append_assoc]
      exact ⟨rfl, rfl⟩

/-- **A walk ends after as many visits as it lists nodes**, and not before. -/
theorem iterate_visit_eq_iff (F : Forest ν) (n : ν) (k : Nat) :
    (visit F.children)^[k] ⟨[], [n]⟩ = ⟨F.subtree n, []⟩ ↔ (F.subtree n).length ≤ k := by
  obtain ⟨hvisited, hpending⟩ := iterate_visit F ⟨[], [n]⟩ k
  constructor
  · intro h
    rw [h, F.walk_nil] at hpending
    exact List.drop_eq_nil_iff.mp hpending.symm
  · intro hk
    have hend := List.drop_eq_nil_of_le hk
    rw [Forest.subtree] at hend hk ⊢
    rw [hend, Forest.walk_eq_nil_iff] at hpending
    rw [List.nil_append, List.take_of_length_le hk] at hvisited
    exact congrArg₂ Walk.mk hvisited hpending

end Walk

/-! ## Ways down -/

/-- The node that a way down leads to: at each node, the place of the child to go on to. -/
def follow (children : ν → List ν) : ν → List Nat → Option ν
  | n, [] => some n
  | n, i :: path => (children n)[i]?.bind fun c => follow children c path

namespace Forest

variable {F : Forest ν} {n : ν}

/-- The ways down from a node: the way that ends there, and those through each child. -/
def paths (F : Forest ν) (n : ν) : List (List Nat) :=
  [] :: (F.children n).attach.zipIdx.flatMap fun c => (F.paths c.1.1).map (c.2 :: ·)
termination_by F.children_wf.wrap n
decreasing_by exact c.1.2

theorem paths_eq (F : Forest ν) (n : ν) :
    F.paths n = [] :: (F.children n).zipIdx.flatMap fun c => (F.paths c.1).map (c.2 :: ·) := by
  have hattach : (F.children n).zipIdx =
      (F.children n).attach.zipIdx.map (Prod.map Subtype.val id) := by
    rw [← List.zipIdx_map, List.attach_map_subtype_val]
  rw [paths, hattach, List.flatMap_map]
  rfl

/-- All ways down are there, and no others. -/
theorem mem_paths {path : List Nat} : path ∈ F.paths n ↔ (follow F.children n path).isSome := by
  induction path generalizing n with
  | nil =>
    rw [paths_eq]
    exact iff_of_true List.mem_cons_self rfl
  | cons i path ih =>
    rw [paths_eq, follow, Option.isSome_bind, Option.any_eq_true]
    simp only [List.mem_cons, List.mem_flatMap, List.mem_map, reduceCtorEq, false_or,
      List.cons.injEq, ← ih]
    constructor
    · rintro ⟨⟨c, j⟩, hc, _, hpath, rfl, rfl⟩
      exact ⟨c, List.mk_mem_zipIdx_iff_getElem?.mp hc, hpath⟩
    · rintro ⟨c, hc, hpath⟩
      exact ⟨(c, i), List.mk_mem_zipIdx_iff_getElem?.mpr hc, path, hpath, rfl, rfl⟩

/-- The ways down are listed in lexicographic order, so that none is listed twice. -/
theorem pairwise_paths (F : Forest ν) (n : ν) : (F.paths n).Pairwise (· < ·) := by
  induction n using F.children_wf.induction with
  | _ n ih =>
    rw [paths_eq, List.pairwise_cons, List.pairwise_flatMap]
    refine ⟨?_, ?_, ?_⟩
    · intro path hpath
      obtain ⟨c, -, hpath⟩ := List.mem_flatMap.mp hpath
      obtain ⟨rest, -, rfl⟩ := List.mem_map.mp hpath
      exact List.nil_lt_cons _ _
    · -- Through one child, the ways are in order as they are from there.
      rintro ⟨c, i⟩ hc
      rw [List.pairwise_map]
      refine (ih c (List.fst_mem_of_mem_zipIdx hc)).imp ?_
      intro a b hab
      exact List.cons_lt_cons_self.mpr hab
    · -- The ways through one child come before those through the next.
      have hplaces : ((F.children n).zipIdx.map Prod.snd).Pairwise (· < ·) := by
        rw [List.zipIdx_map_snd]
        exact List.pairwise_lt_range' 1
      rw [List.pairwise_map] at hplaces
      refine hplaces.imp ?_
      intro c d hcd a ha b hb
      obtain ⟨_, -, rfl⟩ := List.mem_map.mp ha
      obtain ⟨_, -, rfl⟩ := List.mem_map.mp hb
      exact List.cons_lt_cons_iff.mpr (Or.inl hcd)

/-- **The unfolding of a node has an entry for each way down**: the node that it leads to. -/
theorem map_follow_paths (F : Forest ν) (n : ν) :
    (F.paths n).map (follow F.children n) = (F.preorder n).map some := by
  induction n using F.children_wf.induction with
  | _ n ih =>
    rw [paths_eq, preorder_eq, List.map_cons, List.map_cons, List.map_flatMap, List.map_flatMap]
    refine congrArg (some n :: ·) ?_
    calc
      _ = (F.children n).zipIdx.flatMap fun c => (F.preorder c.1).map some := by
        refine List.flatMap_congr fun c hc => ?_
        have hchild := List.mk_mem_zipIdx_iff_getElem?.mp hc
        rw [← ih c.1 (List.mem_of_getElem? hchild), List.map_map]
        refine List.map_congr_left fun path _ => ?_
        show follow F.children n (c.2 :: path) = _
        rw [follow, hchild, Option.bind_some]
      _ = ((F.children n).zipIdx.map Prod.fst).flatMap fun c => (F.preorder c).map some := by
        rw [List.flatMap_map]
      _ = _ := by rw [List.zipIdx_map_fst]

/-! ## Texts -/

theorem textOf_of_text (h : F.kind n = .text) : F.textOf n = F.content n := by
  rw [textOf, if_pos h]

theorem textOf_of_element (h : F.kind n = .element) :
    F.textOf n = ((F.preorder n).filter (F.kind · = .text)).flatMap F.content := by
  rw [textOf, if_neg (by rw [h]; exact NodeKind.noConfusion), subtree_eq_preorder]

/-- **Where texts are leaves, the text of an element is that of its children.** A text with children
has its own content only, but the texts below it belong to the text of any element above. -/
theorem textOf_of_leaves (hleaf : ∀ n, F.kind n = .text → F.children n = [])
    (h : F.kind n = .element) : F.textOf n = (F.children n).flatMap F.textOf := by
  have hchild (c : ν) :
      F.textOf c = ((F.preorder c).filter (F.kind · = .text)).flatMap F.content := by
    cases hc : F.kind c with
    | element => exact textOf_of_element hc
    | text =>
      rw [textOf_of_text hc, preorder_eq, hleaf c hc, List.flatMap_nil]
      simp [hc]
  rw [textOf_of_element h, preorder_eq, List.filter_cons_of_neg (by simp [h]), List.filter_flatMap,
    List.flatMap_assoc]
  exact List.flatMap_congr fun c _ => (hchild c).symm

/-! ## Walks of all nodes -/

/-- Nodes that are asked for their kinds, contents and children alone. Where a walk goes does not
depend on anything else, and so the nodes are taken to have no parents, tags and attributes. -/
def ofChildren (kind : ν → NodeKind) (content : ν → Text) (children : ν → List ν)
    (hchildren : WellFounded fun c n => c ∈ children n) : Forest ν where
  kind := kind
  tag _ := []
  content := content
  attr _ _ := none
  children := children
  parent _ := none
  children_wf := hchildren
  parent_wf := ⟨fun _ => ⟨_, nofun⟩⟩

/-- The unfolding of a node depends on the children alone. -/
theorem preorder_congr {F G : Forest ν} (h : F.children = G.children) :
    F.preorder = G.preorder := by
  funext n
  induction n using F.children_wf.induction with
  | _ n ih =>
    rw [preorder_eq, preorder_eq, ← h]
    exact congrArg (n :: ·) (List.flatMap_congr ih)

/-- **Walks end, and list the recursive unfolding**, over any nodes of which no chain of children
goes on for ever. Children may be shared or listed twice, texts may have children, and of the
parents nothing is asked. A walk from a node ends after as many visits as the unfolding of the node
has entries, and has then visited these. They are the nodes at the ends of all ways down from the
node, in the order of the ways, so that a node has an entry for each way to it. The text of a text
is its own content, and that of an element is what the texts of its unfolding contain; and it is
made up of the texts of its children, if no text has children. -/
theorem subtree_unfolds (kind : ν → NodeKind) (content : ν → Text) {children : ν → List ν}
    (hchildren : WellFounded fun c n => c ∈ children n) :
    ∃ unfold : ν → List ν,
      (∀ n, unfold n = n :: (children n).flatMap unfold) ∧
      (∀ n k, (Walk.visit children)^[k] ⟨[], [n]⟩ = ⟨unfold n, []⟩ ↔ (unfold n).length ≤ k) ∧
      (∀ n, ∃ paths : List (List Nat), paths.Pairwise (· < ·) ∧
        (∀ path, path ∈ paths ↔ (follow children n path).isSome) ∧
          paths.map (follow children n) = (unfold n).map some) ∧
      (ofChildren kind content children hchildren).subtree = unfold ∧
      ∀ F : Forest ν, F.kind = kind → F.content = content → F.children = children →
        F.subtree = unfold ∧
        (∀ n, F.textOf n = if kind n = .text then content n
          else ((unfold n).filter (kind · = .text)).flatMap content) ∧
        ((∀ n, kind n = .text → children n = []) →
          ∀ n, kind n = .element → F.textOf n = (children n).flatMap F.textOf) := by
  have hsubtree (F : Forest ν) (h : F.children = children) :
      F.subtree = (ofChildren kind content children hchildren).preorder := by
    funext n
    rw [subtree_eq_preorder, preorder_congr (G := ofChildren kind content children hchildren) h]
  refine ⟨_, preorder_eq _, fun n k => ?_, fun n => ?_, hsubtree _ rfl, ?_⟩
  · rw [← subtree_eq_preorder]
    exact Walk.iterate_visit_eq_iff (ofChildren kind content children hchildren) n k
  · let F := ofChildren kind content children hchildren
    exact ⟨F.paths n, F.pairwise_paths n, fun path => F.mem_paths, F.map_follow_paths n⟩
  · rintro F rfl rfl rfl
    refine ⟨hsubtree F rfl, fun n => ?_, fun hleaf n hn => textOf_of_leaves hleaf hn⟩
    rw [← hsubtree F rfl]
    rfl

/-- An element that lists its text twice, which has a text below it. -/
def nested : Forest (Fin 3) :=
  ofChildren (fun n => if n = 0 then .element else .text) (fun n => if n = 1 then "a" else "b")
    (fun n => if n = 0 then [1, 1] else if n = 1 then [2] else [])
    (have hlt : ∀ c n : Fin 3, c ∈ (if n = 0 then [1, 1] else if n = 1 then [2] else []) →
        2 - c.val < 2 - n.val := by decide
    Subrelation.wf (hlt _ _) (InvImage.wf (fun n : Fin 3 => 2 - n.val) Nat.lt_wfRel.wf))

/-- An element that lists its text twice, which is a leaf. -/
def paired : Forest (Fin 2) :=
  ofChildren (fun n => if n = 0 then .element else .text) (fun _ => "a")
    (fun n => if n = 0 then [1, 1] else [])
    (have hlt : ∀ c n : Fin 2, c ∈ (if n = 0 then [1, 1] else []) → 1 - c.val < 1 - n.val := by
      decide
    Subrelation.wf (hlt _ _) (InvImage.wf (fun n : Fin 2 => 1 - n.val) Nat.lt_wfRel.wf))

/-- Five visits are needed for three nodes. The text at the end belongs to the element twice, and
not to the text above it. Without it the text of the element is that of its children. -/
theorem subtree_unfolds_nested :
    (Walk.visit nested.children)^[5] ⟨[], [0]⟩ = ⟨[0, 1, 2, 1, 2], []⟩ ∧
      nested.subtree 0 = [0, 1, 2, 1, 2] ∧ nested.textOf 0 = "abab" ∧ nested.textOf 1 = "a" ∧
      paired.textOf 0 = paired.textOf 1 ++ (paired.textOf 1 ++ []) := by
  obtain ⟨unfold, hunfold, hvisits, -, -, hforest⟩ :=
    subtree_unfolds nested.kind nested.content nested.children_wf
  obtain ⟨hsubtree, htext, -⟩ := hforest nested rfl rfl rfl
  have hlast : unfold 2 = [2] := hunfold 2
  have hmiddle : unfold 1 = [1, 2] := by
    rw [hunfold 1]
    show 1 :: (unfold 2 ++ []) = _
    rw [hlast]
    rfl
  have hfirst : unfold 0 = [0, 1, 2, 1, 2] := by
    rw [hunfold 0]
    show 0 :: (unfold 1 ++ (unfold 1 ++ [])) = _
    rw [hmiddle]
    rfl
  have hend := (hvisits 0 5).mpr (by rw [hfirst]; decide)
  rw [hfirst] at hend
  refine ⟨hend, by rw [hsubtree, hfirst], ?_, ?_, ?_⟩
  · rw [htext, hfirst]
    decide
  · exact (htext 1).trans (if_pos rfl)
  · obtain ⟨_, -, -, -, -, hforest'⟩ :=
      subtree_unfolds paired.kind paired.content paired.children_wf
    have hleaf : ∀ n, paired.kind n = .text → paired.children n = [] := by decide
    exact (hforest' paired rfl rfl rfl).2.2 hleaf 0 rfl

end Forest

end MarkupQuery
