import Mathlib.Data.List.Forall2
import Mathlib.Data.List.Nodup
import MarkupQuery.Markup.Index

/-!
# The links of a numbered tree

The nodes of documents are numbered in one pass, in which every entry is given the numbers of its
parent and of its children before these are reached. The two kinds of link agree nevertheless: a
node is a child of the node that it calls its parent, once, and of no other. Entries are put
together in two ways only, a node before the entries below it and the entries of siblings one after
the other, and neither breaks the links.

## Main definitions

* `Entry.At`: the entry of a number
* `Entry.Linked`: a list of entries in which parents, children and nodes agree
* `Index.IsTreeOf`: an index that has the nodes of one tree

## Main results

* `Entry.linked_ofNodes`: the entries of siblings are linked
* `Index.consistent_ofDocuments`: the forest of documents is consistent
* `Index.map_node_children`: the children of a number stand for the children of its node
* `Index.parent_eq_none_iff`: only the documents have no parent
* `Index.isTreeOf_ofDocuments`: the index of one document is its tree
-/

namespace MarkupQuery

namespace Entry

variable {first n c : Nat} {p : Option Nat} {e f : Entry} {es fs : List Entry} {m : Node}

/-- The number `n` has the entry `e` in a list that is numbered from `first` on. -/
def At (first : Nat) (entries : List Entry) (n : Nat) (e : Entry) : Prop :=
  ∃ i, n = first + i ∧ entries[i]? = some e

/-- The number `c` has an entry with the parent `p`. -/
def HasParent (first : Nat) (entries : List Entry) (p : Option Nat) (c : Nat) : Prop :=
  ∃ e, At first entries c e ∧ e.parent = p

/-- The number `c` has an entry with the node `m`. -/
def StandsFor (first : Nat) (entries : List Entry) (c : Nat) (m : Node) : Prop :=
  ∃ e, At first entries c e ∧ e.node = m

theorem At.le (h : At first es n e) : first ≤ n := by
  obtain ⟨i, rfl, -⟩ := h
  exact Nat.le_add_right _ _

theorem At.lt (h : At first es n e) : n < first + es.length := by
  obtain ⟨i, rfl, hi⟩ := h
  exact Nat.add_lt_add_left (List.getElem?_eq_some_iff.mp hi).1 _

theorem at_cons : At first (e :: es) n f ↔ n = first ∧ e = f ∨ At (first + 1) es n f := by
  constructor
  · rintro ⟨i, rfl, hi⟩
    cases i with
    | zero => exact Or.inl ⟨rfl, Option.some.inj hi⟩
    | succ i => exact Or.inr ⟨i, by omega, hi⟩
  · rintro (⟨rfl, rfl⟩ | ⟨i, rfl, hi⟩)
    · exact ⟨0, rfl, rfl⟩
    · exact ⟨i + 1, by omega, hi⟩

theorem at_append :
    At first (es ++ fs) n e ↔ At first es n e ∨ At (first + es.length) fs n e := by
  constructor
  · rintro ⟨i, rfl, hi⟩
    rw [List.getElem?_append] at hi
    split at hi
    · exact Or.inl ⟨i, rfl, hi⟩
    · exact Or.inr ⟨i - es.length, by omega, hi⟩
  · rintro (⟨i, rfl, hi⟩ | ⟨i, rfl, hi⟩)
    · exact ⟨i, rfl, by rw [List.getElem?_append_left (List.getElem?_eq_some_iff.mp hi).1, hi]⟩
    · exact ⟨es.length + i, by omega, by rw [List.getElem?_append_right (by omega)]; simpa using hi⟩

theorem hasParent_cons :
    HasParent first (e :: es) p c ↔ c = first ∧ e.parent = p ∨ HasParent (first + 1) es p c := by
  simp only [HasParent, at_cons, or_and_right, exists_or, and_assoc, exists_and_left,
    exists_eq_left']

theorem hasParent_append :
    HasParent first (es ++ fs) p c ↔
      HasParent first es p c ∨ HasParent (first + es.length) fs p c := by
  simp only [HasParent, at_append, or_and_right, exists_or]

theorem StandsFor.cons (h : StandsFor (first + 1) es c m) : StandsFor first (e :: es) c m := by
  obtain ⟨f, hf, hnode⟩ := h
  exact ⟨f, at_cons.mpr (Or.inr hf), hnode⟩

theorem StandsFor.append_left (h : StandsFor first es c m) : StandsFor first (es ++ fs) c m := by
  obtain ⟨f, hf, hnode⟩ := h
  exact ⟨f, at_append.mpr (Or.inl hf), hnode⟩

theorem StandsFor.append_right (h : StandsFor (first + es.length) fs c m) :
    StandsFor first (es ++ fs) c m := by
  obtain ⟨f, hf, hnode⟩ := h
  exact ⟨f, at_append.mpr (Or.inr hf), hnode⟩

/-! ## Lists of linked entries -/

/-- The entries, numbered from `first` on, are those of `nodes` and of all nodes below them. The
numbers of `nodes` are `roots`, and their parent is `parent`, which is not among the entries. -/
structure Linked (parent : Option Nat) (first : Nat) (roots : List Nat) (nodes : List Node)
    (entries : List Entry) : Prop where
  /-- Any other parent is among the entries, before the entry itself. -/
  parent_eq_or : ∀ n e, At first entries n e →
    e.parent = parent ∨ ∃ p, e.parent = some p ∧ first ≤ p ∧ p < n
  mem_roots_iff : ∀ c, c ∈ roots ↔ HasParent first entries parent c
  /-- The children of an entry are the numbers that call it their parent. -/
  mem_children_iff : ∀ n e, At first entries n e →
    ∀ c, c ∈ e.children ↔ HasParent first entries (some n) c
  nodup_children : ∀ n e, At first entries n e → e.children.Nodup
  roots_standFor : List.Forall₂ (StandsFor first entries) roots nodes
  children_standFor : ∀ n e, At first entries n e →
    List.Forall₂ (StandsFor first entries) e.children e.node.children

variable {parent : Option Nat} {roots roots' : List Nat} {nodes nodes' : List Node}

/-- An entry within has no parent outside but the common one. -/
theorem Linked.le_of_hasParent (h : Linked parent first roots nodes es)
    (hparent : ∀ p, parent = some p → p < first) (hn : first ≤ n)
    (hc : HasParent first es (some n) c) : n < c := by
  obtain ⟨e, he, hp⟩ := hc
  rcases h.parent_eq_or c e he with heq | ⟨p, heq, -, hlt⟩
  · have := hparent n (heq.symm.trans hp)
    omega
  · obtain rfl : p = n := Option.some.inj (heq.symm.trans hp)
    exact hlt

theorem linked_nil : Linked parent first [] [] [] where
  parent_eq_or n e he := by obtain ⟨i, -, hi⟩ := he; cases hi
  mem_roots_iff c := ⟨nofun, fun ⟨e, ⟨i, _, hi⟩, _⟩ => by cases hi⟩
  mem_children_iff n e he := by obtain ⟨i, -, hi⟩ := he; cases hi
  nodup_children n e he := by obtain ⟨i, -, hi⟩ := he; cases hi
  roots_standFor := .nil
  children_standFor n e he := by obtain ⟨i, -, hi⟩ := he; cases hi

/-- Siblings may follow others. -/
theorem Linked.append (hparent : ∀ p, parent = some p → p < first)
    (hes : Linked parent first roots nodes es)
    (hfs : Linked parent (first + es.length) roots' nodes' fs) :
    Linked parent first (roots ++ roots') (nodes ++ nodes') (es ++ fs) where
  parent_eq_or n e he := by
    rcases at_append.mp he with he | he
    · exact hes.parent_eq_or n e he
    · rcases hfs.parent_eq_or n e he with h | ⟨p, h, hle, hlt⟩
      · exact Or.inl h
      · exact Or.inr ⟨p, h, by omega, hlt⟩
  mem_roots_iff c := by
    rw [List.mem_append, hasParent_append, hes.mem_roots_iff, hfs.mem_roots_iff]
  mem_children_iff n e he c := by
    rw [hasParent_append]
    -- No entry of the one list has its parent in the other.
    rcases at_append.mp he with he | he
    · rw [hes.mem_children_iff n e he, or_iff_left]
      rintro ⟨f, hf, hp⟩
      rcases hfs.parent_eq_or c f hf with heq | ⟨p, heq, hle, -⟩
      · have := hparent n (heq.symm.trans hp)
        have := he.le
        omega
      · obtain rfl : p = n := Option.some.inj (heq.symm.trans hp)
        have := he.lt
        omega
    · rw [hfs.mem_children_iff n e he, or_iff_right]
      intro hc
      have hlt := hes.le_of_hasParent hparent (Nat.le_trans (Nat.le_add_right _ _) he.le) hc
      obtain ⟨f, hf, -⟩ := hc
      have := hf.lt
      have := he.le
      omega
  nodup_children n e he := by
    rcases at_append.mp he with he | he
    · exact hes.nodup_children n e he
    · exact hfs.nodup_children n e he
  roots_standFor := List.rel_append (hes.roots_standFor.imp fun _ _ h => h.append_left)
    (hfs.roots_standFor.imp fun _ _ h => h.append_right)
  children_standFor n e he := by
    rcases at_append.mp he with he | he
    · exact (hes.children_standFor n e he).imp fun _ _ h => h.append_left
    · exact (hfs.children_standFor n e he).imp fun _ _ h => h.append_right

/-- A node may stand before the entries below it. -/
theorem Linked.cons (hparent : ∀ p, parent = some p → p < first)
    (hes : Linked (some first) (first + 1) roots m.children es) (hnodup : roots.Nodup)
    (position : List Nat) :
    Linked parent first [first] [m] (⟨m, parent, roots, position⟩ :: es) where
  parent_eq_or n e he := by
    rcases at_cons.mp he with ⟨-, rfl⟩ | he
    · exact Or.inl rfl
    · rcases hes.parent_eq_or n e he with h | ⟨p, h, hle, hlt⟩
      · exact Or.inr ⟨first, h, Nat.le_refl _, he.le⟩
      · exact Or.inr ⟨p, h, by omega, hlt⟩
  mem_roots_iff c := by
    rw [List.mem_singleton, hasParent_cons, or_iff_left, and_iff_left rfl]
    -- The entries below the node have the node or one below it as their parent.
    rintro ⟨f, hf, hp⟩
    rcases hes.parent_eq_or c f hf with heq | ⟨p, heq, hle, -⟩
    · exact Nat.lt_irrefl _ (hparent first (hp.symm.trans heq))
    · have := hparent p (hp.symm.trans heq)
      omega
  mem_children_iff n e he c := by
    have hother (h : parent = some n) : n < first := hparent n h
    rw [hasParent_cons]
    rcases at_cons.mp he with ⟨rfl, rfl⟩ | he
    · rw [hes.mem_roots_iff, or_iff_right]
      rintro ⟨-, h⟩
      exact Nat.lt_irrefl _ (hother h)
    · rw [hes.mem_children_iff n e he, or_iff_right]
      rintro ⟨-, h⟩
      have := hother h
      have := he.le
      omega
  nodup_children n e he := by
    rcases at_cons.mp he with ⟨-, rfl⟩ | he
    · exact hnodup
    · exact hes.nodup_children n e he
  roots_standFor := .cons ⟨_, at_cons.mpr (Or.inl ⟨rfl, rfl⟩), rfl⟩ .nil
  children_standFor n e he := by
    rcases at_cons.mp he with ⟨-, rfl⟩ | he
    · exact hes.roots_standFor.imp fun _ _ h => h.cons
    · exact (hes.children_standFor n e he).imp fun _ _ h => h.cons

/-! ## The entries of trees -/

theorem size_pos (n : Node) : 0 < n.size := by
  cases n <;> exact Nat.succ_pos _

/-- No two siblings have the same number. -/
theorem nodup_numbers (first : Nat) (nodes : List Node) : (numbers first nodes).Nodup := by
  induction nodes generalizing first with
  | nil => exact List.nodup_nil
  | cons n nodes ih =>
    refine List.nodup_cons.mpr ⟨?_, ih _⟩
    intro hmem
    have := le_of_mem_numbers hmem
    have := size_pos n
    omega

mutual

theorem linked_ofNode {parent : Option Nat} (position : List Nat) {number : Nat} (n : Node)
    (h : ∀ p, parent = some p → p < number) :
    Linked parent number [number] [n] (ofNode parent position number n) := by
  have hbelow : ∀ p, some number = some p → p < number + 1 := by
    intro p hp
    cases hp
    exact Nat.lt_succ_self _
  cases n with
  | document children =>
    rw [ofNode]
    exact .cons h (linked_ofNodes position 0 children hbelow) (nodup_numbers _ _) _
  | element tag attributes children =>
    rw [ofNode]
    exact .cons h (linked_ofNodes position 0 children hbelow) (nodup_numbers _ _) _
  | text value =>
    rw [ofNode]
    exact .cons h linked_nil List.nodup_nil _

/-- **The entries of siblings are linked**, with everything below them. -/
theorem linked_ofNodes {parent : Option Nat} (position : List Nat) (ordinal : Nat) {number : Nat}
    (ns : List Node) (h : ∀ p, parent = some p → p < number) :
    Linked parent number (numbers number ns) ns (ofNodes parent position ordinal number ns) := by
  cases ns with
  | nil =>
    rw [ofNodes]
    exact linked_nil
  | cons n ns =>
    rw [ofNodes]
    -- The siblings after the first are numbered from where its tree ends.
    refine .append h (linked_ofNode _ n h) ?_
    rw [length_ofNode]
    exact linked_ofNodes _ _ ns fun p hp => Nat.lt_of_lt_of_le (h p hp) (Nat.le_add_right _ _)

end

end Entry

/-! ## The forest of documents -/

namespace Index

variable {documents : List Node} {n : Nat}

theorem linked_ofDocuments (documents : List Node) :
    Entry.Linked none 0 (Entry.numbers 0 documents) documents
      (ofDocuments documents).entries.toList :=
  Entry.linked_ofNodes [] 0 documents nofun

/-- The entry of a number is the one in the list, when there is one. -/
theorem entry_eq_of_at {ix : Index} {e : Entry} (h : Entry.At 0 ix.entries.toList n e) :
    ix.entry n = e := by
  obtain ⟨i, rfl, hi⟩ := h
  rw [Array.getElem?_toList] at hi
  rw [entry, Array.getD_eq_getD_getElem?, Nat.zero_add, hi, Option.getD_some]

/-- A number beyond the index has the entry of an empty text. -/
theorem entry_of_size_le {ix : Index} (h : ix.entries.size ≤ n) :
    ix.entry n = ⟨.text [], none, [], []⟩ := by
  rw [entry, Array.getD_eq_getD_getElem?, Array.getElem?_eq_none h, Option.getD_none]

theorem at_entry {ix : Index} (h : n < ix.entries.size) :
    Entry.At 0 ix.entries.toList n (ix.entry n) := by
  refine ⟨n, (Nat.zero_add n).symm, ?_⟩
  rw [entry, Array.getD_eq_getD_getElem?, Array.getElem?_toList, Array.getElem?_eq_getElem h]
  rfl

/-- A number that has a parent is one of the index. -/
theorem lt_size_of_parent {ix : Index} {p : Nat} (h : (ix.entry n).parent = some p) :
    n < ix.entries.size := by
  rcases Nat.lt_or_ge n ix.entries.size with hn | hn
  · exact hn
  · rw [entry_of_size_le hn] at h
    contradiction

/-- A number has the parent that its entry has. -/
theorem hasParent_iff {ix : Index} {p c : Nat} :
    Entry.HasParent 0 ix.entries.toList (some p) c ↔ (ix.entry c).parent = some p := by
  constructor
  · rintro ⟨e, he, hp⟩
    rw [entry_eq_of_at he, hp]
  · intro h
    exact ⟨_, at_entry (lt_size_of_parent h), h⟩

/-- **In the forest of documents parents and children agree.** -/
theorem consistent_ofDocuments (documents : List Node) :
    (ofDocuments documents).forest.Consistent where
  nodup_children n := by
    rcases Nat.lt_or_ge n (ofDocuments documents).entries.size with hn | hn
    · exact (linked_ofDocuments documents).nodup_children n _ (at_entry hn)
    · show ((ofDocuments documents).entry n).children.Nodup
      rw [entry_of_size_le hn]
      exact List.nodup_nil
  mem_children_iff c n := by
    have hlinked (hn : n < (ofDocuments documents).entries.size) :=
      ((linked_ofDocuments documents).mem_children_iff n _ (at_entry hn) c).trans hasParent_iff
    constructor
    · intro h
      exact (hlinked (lt_size_of_mem_children h)).mp h
    · intro h
      exact (hlinked (Nat.lt_trans (lt_of_parent h) (lt_size_of_parent h))).mpr h

theorem map_node_eq {ix : Index} {numbers : List Nat} {nodes : List Node}
    (h : List.Forall₂ (Entry.StandsFor 0 ix.entries.toList) numbers nodes) :
    numbers.map ix.node = nodes := by
  induction h with
  | nil => rfl
  | cons hn _ ih =>
    obtain ⟨e, he, rfl⟩ := hn
    rw [List.map_cons, ih, node, entry_eq_of_at he]

/-- The documents have the numbers of the roots. -/
theorem map_node_roots (documents : List Node) :
    (Entry.numbers 0 documents).map (ofDocuments documents).node = documents :=
  map_node_eq (linked_ofDocuments documents).roots_standFor

/-- The children of a number stand for the children of its node. -/
theorem map_node_children (documents : List Node) (n : Nat) :
    ((ofDocuments documents).forest.children n).map (ofDocuments documents).node =
      ((ofDocuments documents).node n).children := by
  rcases Nat.lt_or_ge n (ofDocuments documents).entries.size with hn | hn
  · exact map_node_eq ((linked_ofDocuments documents).children_standFor n _ (at_entry hn))
  · show ((ofDocuments documents).entry n).children.map _ =
      ((ofDocuments documents).entry n).node.children
    rw [entry_of_size_le hn]
    rfl

/-- A text has no children. -/
theorem children_eq_nil_of_text (h : (ofDocuments documents).forest.kind n = .text) :
    (ofDocuments documents).forest.children n = [] := by
  have hnode : ∃ value, (ofDocuments documents).node n = .text value := by
    unfold forest at h
    dsimp only at h
    split at h
    · next value hvalue => exact ⟨value, hvalue⟩
    · contradiction
  obtain ⟨value, hvalue⟩ := hnode
  have hchildren := map_node_children documents n
  rw [hvalue] at hchildren
  exact List.map_eq_nil_iff.mp hchildren

/-- Of the numbered nodes only the documents have no parent. -/
theorem parent_eq_none_iff (hn : n < (ofDocuments documents).entries.size) :
    (ofDocuments documents).forest.parent n = none ↔ n ∈ Entry.numbers 0 documents := by
  rw [(linked_ofDocuments documents).mem_roots_iff]
  constructor
  · intro h
    exact ⟨_, at_entry hn, h⟩
  · rintro ⟨e, he, hp⟩
    show ((ofDocuments documents).entry n).parent = none
    rw [entry_eq_of_at he, hp]

/-! ## One tree -/

/-- The numbered nodes are those of one tree: a node is among the children of its parent once and
of no other node, and its children are the children that it has in the tree. -/
structure IsTreeOf (ix : Index) (root : Node) : Prop where
  /-- The numbers go up to the number of nodes of the tree. -/
  size_entries : ix.entries.size = root.size
  node_zero : ix.node 0 = root
  map_node_children : ∀ n, (ix.forest.children n).map ix.node = (ix.node n).children
  consistent : ix.forest.Consistent
  /-- Every node below the root has one parent. -/
  exists_parent : ∀ n, 0 < n → n < root.size →
    ∃ p, ix.forest.parent n = some p ∧ (ix.forest.children p).count n = 1 ∧
      ∀ q, n ∈ ix.forest.children q → q = p
  /-- Texts are leaves. -/
  children_eq_nil_of_text : ∀ n, ix.forest.kind n = .text → ix.forest.children n = []

/-- **The index of one document is its tree.** -/
theorem isTreeOf_ofDocuments (root : Node) : (ofDocuments [root]).IsTreeOf root := by
  have hsize : (ofDocuments [root]).entries.size = root.size := by
    show (Entry.ofNodes none [] 0 0 [root]).toArray.size = root.size
    rw [List.size_toArray, Entry.length_ofNodes, Node.sizes, Node.sizes, Nat.add_zero]
  have hconsistent := consistent_ofDocuments [root]
  refine ⟨hsize, ?_, map_node_children [root], hconsistent, ?_, fun n => children_eq_nil_of_text⟩
  · exact (List.cons.inj (map_node_roots [root])).1
  · intro n hpos hn
    have hparent : (ofDocuments [root]).forest.parent n ≠ none := by
      rw [ne_eq, parent_eq_none_iff (hsize.symm ▸ hn), Entry.numbers, Entry.numbers,
        List.mem_singleton]
      exact Nat.ne_of_gt hpos
    obtain ⟨p, hp⟩ := Option.ne_none_iff_exists'.mp hparent
    have hmem := (hconsistent.mem_children_iff n p).mpr hp
    refine ⟨p, hp, List.count_eq_one_of_mem (hconsistent.nodup_children p) hmem, ?_⟩
    intro q hq
    exact Option.some.inj (((hconsistent.mem_children_iff n q).mp hq).symm.trans hp)

end Index

end MarkupQuery
