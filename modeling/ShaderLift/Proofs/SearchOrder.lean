import Mathlib
import ShaderLift.Proofs.Places

/-!
The order of searches. A search for a node, a search for its place and the building of a parent
index all go through the shader as the walk from the last to the first does, whether identities are
distinct or not. The searches stop at the first node with an identity; the index keeps its last one.
-/

namespace ShaderLift

namespace Shader

variable {s : Shader}

/-- The nodes with the identity, as the walk from the last to the first comes to them. -/
def occurrences (s : Shader) (id : NodeId) : List Visit :=
  (s.walk .backward).filter fun v => v.node.id = id

theorem visit?_occurrences (s : Shader) (id : NodeId) : s.visit? id = (s.occurrences id).head? := by
  rw [visit?_eq, occurrences, List.head?_filter]

end Shader

theorem lookup_map {α β γ : Type} [DecidableEq β] (key : α → β) (value : α → γ) (xs : List α)
    (b : β) :
    (xs.map fun x => (key x, value x)).lookup b = (xs.find? fun x => key x = b).map value := by
  induction xs with
  | nil => rfl
  | cons x xs ih =>
    rw [List.map_cons, List.lookup_cons, List.find?_cons]
    by_cases h : key x = b
    · simp [h]
    · have hne : (b == key x) = false := beq_eq_false_iff_ne.2 (Ne.symm h)
      simp [h, hne, ih]

theorem ParentIndex.link?_occurrences (s : Shader) (id : NodeId) :
    (ofShader s).link? id = (s.occurrences id).getLast?.map Visit.link := by
  rw [link?, links_ofShader, ← List.map_reverse, lookup_map, Shader.occurrences,
    List.getLast?_filter]

/-- One walk gives the order of every search. It comes to a node before its children and to the last
child first; what is found by an identity, to be read or to be exchanged, is the first node that has
it there, and what the index keeps of an identity is the link of the last one. -/
theorem Shader.searches_in_order (s : Shader) :
    (s.walk .backward = s.children.reverse.flatMap fun c => (Visit.top c.1 c.2).walk .backward) ∧
    (∀ v : Visit, v.walk .backward =
      v :: v.node.children.reverse.flatMap fun c => (v.child c.1 c.2).walk .backward) ∧
    (∀ id, s.find? id = (s.occurrences id).head?.map Visit.node ∧
      s.place? id = (s.occurrences id).head?.map s.placeAt ∧
      (ParentIndex.ofShader s).link? id = (s.occurrences id).getLast?.map Visit.link) ∧
    (∀ v ∈ s.walk .backward, s.at? v.path = some v.node ∧ (s.placeAt v).node = v.node ∧
      ∀ new : Node, new.kind = v.node.kind →
        ((s.placeAt v).put new).at? v.path = some new) ∧
    (s.places.map fun c => (c.1, c.2.node)) = s.children ∧
    ∀ {α : Type} (p : NodePlace α), (p.children.map fun c => (c.1, c.2.node)) = p.node.children := by
  refine ⟨rfl, Visit.walk_eq .backward, fun id => ⟨?_, ?_, ParentIndex.link?_occurrences s id⟩,
    fun v hv => ?_, s.places_nodes, fun p => p.children_nodes⟩
  · rw [find?, visit?_occurrences]
  · rw [place?_eq, visit?_occurrences]
  · obtain ⟨-, hat⟩ := walk_path hv
    refine ⟨hat, s.node_placeAt v, fun new hkind => ?_⟩
    rw [placeAt, NodePlace.put_of hkind]
    exact at?_setAt hat hkind

/-- A call of `f` with two arguments of one identity. -/
def repeatedIds : Shader :=
  ⟨[.function 1 ⟨⟨[], .void⟩, "main", [],
    some [.expr 2 (.call 3 "f" [.literal 7 (.int 1), .literal 7 (.int 2)])]⟩]⟩

/-- The second argument is found, and the index has the slot of the first. -/
theorem repeatedIds_searched :
    repeatedIds.find? 7 = some (.expression (.literal 7 (.int 2))) ∧
    (repeatedIds.place? 7).map (fun p => p.put (.expression (.name 7 "x"))) =
      some ⟨[.function 1 ⟨⟨[], .void⟩, "main", [],
        some [.expr 2 (.call 3 "f" [.literal 7 (.int 1), .name 7 "x"])]⟩]⟩ ∧
    (ParentIndex.ofShader repeatedIds).link? 7 = some ⟨.node 3, .arg 0⟩ ∧
    ∃ v ∈ repeatedIds.walk .backward,
      repeatedIds.at? v.path = some (.expression (.literal 7 (.int 2))) ∧
      ((repeatedIds.placeAt v).put (.expression (.name 7 "x"))).at? v.path =
        some (.expression (.name 7 "x")) := by
  obtain ⟨-, -, hsearch, hwalk, -⟩ := repeatedIds.searches_in_order
  obtain ⟨hfind, hplace, hlink⟩ := hsearch 7
  have hsecond : (repeatedIds.walk .backward)[3]? = some ⟨⟨.node 3, .arg 1⟩,
      [.topLevel 0, .body 0, .expr, .arg 1], .expression (.literal 7 (.int 2))⟩ := rfl
  obtain ⟨hat, -, hput⟩ := hwalk _ (List.mem_of_getElem? hsecond)
  rw [hfind, hplace, hlink]
  exact ⟨rfl, rfl, rfl, _, List.mem_of_getElem? hsecond, hat, hput _ rfl⟩

end ShaderLift
