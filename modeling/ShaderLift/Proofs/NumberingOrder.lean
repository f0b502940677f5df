import Mathlib
import ShaderLift.Proofs.NumberingLoop
import ShaderLift.Proofs.Renumbering

/-!
The order of numbering. The nodes without an identity get the next ones of the supply in the order of
the walk from the first to the last, and nothing else changes. Where the supply is past all identities
in use and does not run out, every node then has one, a second numbering finds nothing to do, and
identities that were distinct stay so.
-/

namespace ShaderLift

theorem Visit.walk_forward_nodes (v : Visit) : (v.walk .forward).map Visit.node = v.node.nodes := by
  induction hn : v.node using Node.induction generalizing v with
  | step n ih =>
    subst hn
    rw [walk_eq, Node.nodes_eq, childNodes, List.map_cons, List.map_flatMap]
    refine congrArg _ (List.flatMap_congr fun c hc => ?_)
    exact ih c.1 c.2 hc (v.child c.1 c.2) rfl

theorem Shader.walk_forward_nodes (s : Shader) : (s.walk .forward).map Visit.node = s.nodes := by
  rw [walk, List.map_flatMap, nodes_children]
  exact List.flatMap_congr fun c _ => Visit.walk_forward_nodes _

theorem Shader.walk_forward_ids (s : Shader) :
    ((s.walk .forward).map fun v => v.node.id) = s.ids := by
  rw [ids, ← walk_forward_nodes, List.map_map]
  rfl

theorem flatMap_alike {β : Type} {f g : Slot × Node → List β} {xs ys : List (Slot × Node)}
    (h : xs.map (fun c => (c.1, c.2.unnumbered)) = ys.map fun c => (c.1, c.2.unnumbered))
    (hfg : ∀ slot c d, (slot, c) ∈ xs → c.unnumbered = d.unnumbered → f (slot, c) = g (slot, d)) :
    xs.flatMap f = ys.flatMap g := by
  have hmaps : xs.map f = ys.map g := by
    rw [← List.forall₂_eq_eq_eq, List.forall₂_map_left_iff, List.forall₂_map_right_iff]
    refine (forall₂_of_map_eq h).imp ?_
    rintro ⟨slot, c⟩ ⟨slot', d⟩ ⟨heq, i, hc, -⟩
    obtain ⟨rfl, hcd⟩ := Prod.mk.inj heq
    exact hfg slot c d (List.mem_of_getElem? hc) hcd
  exact congrArg List.flatten hmaps

def Visit.shape (v : Visit) : Path × Node := (v.path, v.node.unnumbered)

theorem Visit.walk_shapes {v w : Visit} (h : v.shape = w.shape) :
    (v.walk .forward).map shape = (w.walk .forward).map shape := by
  induction hn : v.node using Node.induction generalizing v w with
  | step n ih =>
    subst hn
    obtain ⟨hpath, hnode⟩ := Prod.mk.inj h
    have hchildren : v.node.children.map (fun c => (c.1, c.2.unnumbered)) =
        w.node.children.map fun c => (c.1, c.2.unnumbered) := by
      rw [← Node.children_unnumbered, hnode, Node.children_unnumbered]
    rw [walk_eq, walk_eq, List.map_cons, List.map_cons, List.map_flatMap, List.map_flatMap, h]
    refine congrArg _ (flatMap_alike hchildren fun slot c d hc hcd => ?_)
    exact ih slot c hc (by simp only [shape, child, hpath, hcd]) rfl

theorem Shader.children_unnumbered (s : Shader) :
    s.unnumbered.children = s.children.map fun c => (c.1, c.2.unnumbered) := by
  simp [children, unnumbered, List.zipIdx_map, Function.comp_def, Node.unnumbered]

theorem Shader.walk_shapes {s t : Shader} (h : s.unnumbered = t.unnumbered) :
    (s.walk .forward).map Visit.shape = (t.walk .forward).map Visit.shape := by
  have hchildren : s.children.map (fun c => (c.1, c.2.unnumbered)) =
      t.children.map fun c => (c.1, c.2.unnumbered) := by
    rw [← children_unnumbered, h, children_unnumbered]
  rw [walk, walk, List.map_flatMap, List.map_flatMap]
  refine flatMap_alike hchildren fun slot c d _ hcd => Visit.walk_shapes ?_
  simp only [Visit.shape, Visit.top, hcd]

theorem fillIds_kept {next : NodeId} {ids : List NodeId} :
    ∀ x ∈ ids.zip (fillIds next ids), x.1 ≠ .unassigned → x.2 = x.1 := by
  fun_induction fillIds next ids with
  | case1 => simp
  | case2 next rest ih => simpa using ih
  | case3 next id rest h ih => simpa using ih

theorem fillIds_given (next : NodeId) (ids : List NodeId) :
    ((ids.zip (fillIds next ids)).filter fun x => x.1 = .unassigned).map Prod.snd =
      List.range' next (ids.count .unassigned) := by
  fun_induction fillIds next ids with
  | case1 => rfl
  | case2 next rest ih => simp [ih, List.range'_succ]
  | case3 next id rest h ih => simpa [h] using ih

theorem mem_fillIds {next id : NodeId} {ids : List NodeId} (h : id ∈ fillIds next ids) :
    (id ∈ ids ∧ id ≠ .unassigned) ∨ (next ≤ id ∧ id < next + ids.count .unassigned) := by
  fun_induction fillIds next ids with
  | case1 => cases h
  | case2 next rest ih =>
    rcases List.mem_cons.1 h with rfl | h
    · exact .inr ⟨Nat.le_refl _, by simp⟩
    · rcases ih h with ⟨hmem, hassigned⟩ | ⟨hle, hlt⟩
      · exact .inl ⟨List.mem_cons_of_mem _ hmem, hassigned⟩
      · refine .inr ⟨Nat.le_of_succ_le hle, ?_⟩
        rwa [List.count_cons_self, Nat.add_comm _ 1, ← Nat.add_assoc]
  | case3 next first rest hfirst ih =>
    rcases List.mem_cons.1 h with rfl | h
    · exact .inl ⟨List.mem_cons_self, hfirst⟩
    · rw [List.count_cons_of_ne hfirst]
      exact (ih h).imp_left fun ⟨hmem, hassigned⟩ => ⟨List.mem_cons_of_mem _ hmem, hassigned⟩

theorem fillIds_nodup {next : NodeId} {ids : List NodeId}
    (hfresh : ∀ id ∈ ids, id ≠ .unassigned → id < next)
    (hids : (ids.filter (· ≠ .unassigned)).Nodup) : (fillIds next ids).Nodup := by
  fun_induction fillIds next ids with
  | case1 => exact List.nodup_nil
  | case2 next rest ih =>
    have hrest := fun id hid => hfresh id (List.mem_cons_of_mem _ hid)
    refine List.nodup_cons.2 ⟨fun hmem => ?_, ih (fun id hid hne => ?_) (by simpa using hids)⟩
    · rcases mem_fillIds hmem with ⟨hold, hne⟩ | ⟨hle, -⟩
      · exact Nat.lt_irrefl _ (hrest next hold hne)
      · exact Nat.not_succ_le_self _ hle
    · exact Nat.lt_succ_of_lt (hrest id hid hne)
  | case3 next first rest hfirst ih =>
    have hrest := fun id hid => hfresh id (List.mem_cons_of_mem _ hid)
    have hlt := hfresh first List.mem_cons_self hfirst
    rw [List.filter_cons_of_pos (by simpa using hfirst), List.nodup_cons] at hids
    refine List.nodup_cons.2 ⟨fun hmem => ?_, ih hrest hids.2⟩
    rcases mem_fillIds hmem with ⟨hold, -⟩ | ⟨hle, -⟩
    · exact hids.1 (List.mem_filter.2 ⟨hold, by simpa using hfirst⟩)
    · exact Nat.not_lt.2 hle hlt

def Assigned (nodes : List Node) : Prop := ∀ n ∈ nodes, n.id ≠ .unassigned

namespace Assigned

variable {n : Node} {a b : List Node}

theorem cons_iff : Assigned (n :: a) ↔ n.id ≠ .unassigned ∧ Assigned a := List.forall_mem_cons

theorem append_iff : Assigned (a ++ b) ↔ Assigned a ∧ Assigned b := List.forall_mem_append

theorem flatMap_iff {α : Type} {f : α → List Node} {xs : List α} :
    Assigned (xs.flatMap f) ↔ ∀ x ∈ xs, Assigned (f x) := by
  simp only [Assigned, List.mem_flatMap]
  grind

end Assigned

theorem numberId_assigned {id : NodeId} (h : id ≠ .unassigned) (ids : IdSupply) :
    numberId id ids = (id, ids) := by
  rw [numberId, if_neg h, Numbered.pure_apply]

theorem mapM_assigned {α : Type} {number : α → Numbered α} {xs : List α}
    (h : ∀ x ∈ xs, ∀ ids, number x ids = (x, ids)) (ids : IdSupply) :
    xs.mapM number ids = (xs, ids) := by
  induction xs with
  | nil => rfl
  | cons x xs ih =>
    obtain ⟨hx, hxs⟩ := List.forall_mem_cons.1 h
    simp [hx, ih hxs]

mutual

theorem Expr.number_assigned : ∀ (e : Expr) (ids : IdSupply), Assigned e.nodes →
    e.number ids = (e, ids)
  | literal _ _, ids, h | name _ _, ids, h => by
    simp only [nodes, Assigned.cons_iff, Node.id, Expr.id] at h
    simp [number, numberId_assigned h.1]
  | paren _ e, ids, h | unary _ _ e, ids, h | member _ e _, ids, h => by
    simp only [nodes, Assigned.cons_iff, Node.id, Expr.id] at h
    simp [number, numberId_assigned h.1, e.number_assigned ids h.2]
  | binary _ _ l r, ids, h | assign _ _ l r, ids, h | index _ l r, ids, h => by
    simp only [nodes, Assigned.cons_iff, Assigned.append_iff, Node.id, Expr.id] at h
    simp [number, numberId_assigned h.1, l.number_assigned ids h.2.1, r.number_assigned ids h.2.2]
  | ternary _ c y n, ids, h => by
    simp only [nodes, Assigned.cons_iff, Assigned.append_iff, Node.id, Expr.id] at h
    obtain ⟨hid, ⟨hc, hy⟩, hn⟩ := h
    simp [number, numberId_assigned hid, c.number_assigned ids hc, y.number_assigned ids hy,
      n.number_assigned ids hn]
  | call _ f args, ids, h => by
    simp only [nodes, Assigned.cons_iff, Node.id, Expr.id] at h
    simp [number, numberId_assigned h.1, numberArgs_assigned args ids h.2]

theorem Expr.numberArgs_assigned : ∀ (args : List Expr) (ids : IdSupply),
    Assigned (nodesOfArgs args) → numberArgs args ids = (args, ids)
  | [], ids, _ => rfl
  | e :: es, ids, h => by
    simp only [nodesOfArgs, Assigned.append_iff] at h
    simp [numberArgs, e.number_assigned ids h.1, numberArgs_assigned es ids h.2]

end

theorem numberOption_assigned {e : Option Expr} (h : Assigned (nodesOfOption e)) (ids : IdSupply) :
    numberOption e ids = (e, ids) := by
  cases e with
  | none => rfl
  | some e => simp [numberOption, e.number_assigned ids h]

theorem numberSuffix_assigned {a : Option ArraySuffix} (h : Assigned (nodesOfSuffix a))
    (ids : IdSupply) : numberSuffix a ids = (a, ids) := by
  cases a with
  | none => rfl
  | some a =>
    have hsize : Assigned (nodesOfOption a.size) := h
    simp [numberSuffix, numberOption_assigned hsize]

theorem Variables.number_assigned {v : Variables} (h : Assigned v.nodes) (ids : IdSupply) :
    v.number ids = (v, ids) := by
  have hvars : ∀ d ∈ v.vars, ∀ ids, d.number ids = (d, ids) := by
    intro d hd ids
    obtain ⟨harray, hinit⟩ := Assigned.append_iff.1 (Assigned.flatMap_iff.1 h d hd)
    simp [Declarator.number, numberSuffix_assigned harray, numberOption_assigned hinit]
  simp [number, mapM_assigned hvars]

mutual

theorem Stmt.number_assigned : ∀ (s : Stmt) (ids : IdSupply), Assigned s.nodes →
    s.number ids = (s, ids)
  | block _ body, ids, h => by
    simp only [nodes, Assigned.cons_iff, Node.id, Stmt.id] at h
    simp [number, numberId_assigned h.1, numberBody_assigned body ids h.2]
  | declare _ vars, ids, h => by
    simp only [nodes, Assigned.cons_iff, Node.id, Stmt.id] at h
    simp [number, numberId_assigned h.1, Variables.number_assigned h.2]
  | expr _ e, ids, h => by
    simp only [nodes, Assigned.cons_iff, Node.id, Stmt.id] at h
    simp [number, numberId_assigned h.1, e.number_assigned ids h.2]
  | ifThen _ c y, ids, h => by
    simp only [nodes, Assigned.cons_iff, Assigned.append_iff, Node.id, Stmt.id] at h
    simp [number, numberId_assigned h.1, c.number_assigned ids h.2.1, y.number_assigned ids h.2.2]
  | ifElse _ c y n, ids, h => by
    simp only [nodes, Assigned.cons_iff, Assigned.append_iff, Node.id, Stmt.id] at h
    obtain ⟨hid, ⟨hc, hy⟩, hn⟩ := h
    simp [number, numberId_assigned hid, c.number_assigned ids hc, y.number_assigned ids hy,
      n.number_assigned ids hn]
  | forLoop _ init c t body, ids, h => by
    simp only [nodes, Assigned.cons_iff, Assigned.append_iff, Node.id, Stmt.id] at h
    obtain ⟨hid, ⟨⟨hinit, hc⟩, ht⟩, hbody⟩ := h
    simp [number, numberId_assigned hid, init.number_assigned ids hinit, numberOption_assigned hc,
      numberOption_assigned ht, body.number_assigned ids hbody]
  | whileLoop _ c body, ids, h => by
    simp only [nodes, Assigned.cons_iff, Assigned.append_iff, Node.id, Stmt.id] at h
    simp [number, numberId_assigned h.1, c.number_assigned ids h.2.1, body.number_assigned ids h.2.2]
  | doWhile _ body c, ids, h => by
    simp only [nodes, Assigned.cons_iff, Assigned.append_iff, Node.id, Stmt.id] at h
    simp [number, numberId_assigned h.1, body.number_assigned ids h.2.1, c.number_assigned ids h.2.2]
  | ret _ e, ids, h => by
    simp only [nodes, Assigned.cons_iff, Node.id, Stmt.id] at h
    simp [number, numberId_assigned h.1, numberOption_assigned h.2]
  | jump _ _, ids, h | empty _, ids, h => by
    simp only [nodes, Assigned.cons_iff, Node.id, Stmt.id] at h
    simp [number, numberId_assigned h.1]

theorem Stmt.numberBody_assigned : ∀ (body : List Stmt) (ids : IdSupply),
    Assigned (nodesOfBody body) → numberBody body ids = (body, ids)
  | [], ids, _ => rfl
  | s :: rest, ids, h => by
    simp only [nodesOfBody, Assigned.append_iff] at h
    simp [numberBody, s.number_assigned ids h.1, numberBody_assigned rest ids h.2]

end

theorem Function.number_assigned {f : Function}
    (hparams : Assigned (f.params.flatMap fun p => nodesOfSuffix p.array))
    (hbody : Assigned (Stmt.nodesOfBody (f.body.getD []))) (ids : IdSupply) :
    f.number ids = (f, ids) := by
  have hps : ∀ p ∈ f.params, ∀ ids, p.number ids = (p, ids) := by
    intro p hp ids
    simp [Param.number, numberSuffix_assigned (Assigned.flatMap_iff.1 hparams p hp)]
  obtain ⟨returns, name, params, body⟩ := f
  cases body with
  | none => simp [number, mapM_assigned hps]
  | some body => simp [number, mapM_assigned hps, Stmt.numberBody_assigned body ids hbody]

theorem Declaration.number_assigned {d : Declaration} (h : Assigned d.nodes) (ids : IdSupply) :
    d.number ids = (d, ids) := by
  cases d with
  | globals id vars =>
    simp only [nodes, Assigned.cons_iff, Node.id, Declaration.id] at h
    simp [number, numberId_assigned h.1, Variables.number_assigned h.2]
  | interfaceBlock id b =>
    simp only [nodes, Assigned.cons_iff, Node.id, Declaration.id] at h
    have hmembers : ∀ m ∈ b.members, ∀ ids, m.number ids = (m, ids) := by
      intro m hm ids
      simp [BlockMember.number, numberSuffix_assigned (Assigned.flatMap_iff.1 h.2 m hm)]
    simp [number, numberId_assigned h.1, mapM_assigned hmembers]
  | function id f =>
    simp only [nodes, Assigned.cons_iff, Assigned.append_iff, Node.id, Declaration.id] at h
    simp [number, numberId_assigned h.1, f.number_assigned h.2.1 h.2.2]
  | _ =>
    simp only [nodes, Assigned.cons_iff, Node.id, Declaration.id] at h
    simp [number, numberId_assigned h.1]

theorem Shader.number_assigned {s : Shader} (h : .unassigned ∉ s.ids) (ids : IdSupply) :
    s.number ids = (s, ids) := by
  have hnodes : Assigned s.nodes := fun n hn heq => h (heq ▸ List.mem_map_of_mem hn)
  have hdeclarations : ∀ d ∈ s.declarations, ∀ ids, d.number ids = (d, ids) := fun d hd =>
    Declaration.number_assigned (Assigned.flatMap_iff.1 hnodes d hd)
  simp [number, mapM_assigned hdeclarations]

def Shader.unassignedCount (s : Shader) : Nat :=
  (s.walk .forward).countP fun v => v.node.id = .unassigned

theorem Shader.unassignedCount_eq (s : Shader) : s.unassignedCount = s.ids.count .unassigned := by
  rw [← walk_forward_ids, List.count, List.countP_map, unassignedCount]
  refine List.countP_congr fun v _ => ?_
  simp

theorem Shader.ids_number (s : Shader) (ids : IdSupply) :
    (s.number ids).1.ids = fillIds ids.next s.ids := (s.number_numbers ids).1

theorem Shader.next_number (s : Shader) (ids : IdSupply) :
    (s.number ids).2.next = ids.next + s.unassignedCount := by
  rw [(s.number_numbers ids).2, unassignedCount_eq]
  rfl

/-- The second shader is the first with an identity for each node that had none. The walks from the
first node to the last go through the same places and differ in the identities only; what had one
keeps it, and the others have `first` and the numbers after it, in this order. -/
structure Shader.NumberedFrom (first : NodeId) (s t : Shader) : Prop where
  alike : t.unnumbered = s.unnumbered
  shapes : (t.walk .forward).map Visit.shape = (s.walk .forward).map Visit.shape
  kept : ∀ x ∈ (s.walk .forward).zip (t.walk .forward),
    x.1.node.id ≠ .unassigned → x.2.node.id = x.1.node.id
  given : (((s.walk .forward).zip (t.walk .forward)).filter
    fun x => x.1.node.id = .unassigned).map (fun x => x.2.node.id) =
      List.range' first s.unassignedCount

theorem Shader.number_numberedFrom (s : Shader) (ids : IdSupply) :
    NumberedFrom ids.next s (s.number ids).1 := by
  have hids : ((s.walk .forward).zip ((s.number ids).1.walk .forward)).map
      (fun x => (x.1.node.id, x.2.node.id)) = s.ids.zip (fillIds ids.next s.ids) := by
    rw [← ids_number, ← walk_forward_ids, ← walk_forward_ids, List.zip_map]
    rfl
  refine ⟨s.unnumbered_number ids, walk_shapes (s.unnumbered_number ids), fun x hx => ?_, ?_⟩
  · exact fillIds_kept _ (hids ▸ List.mem_map_of_mem hx)
  · have hgiven := fillIds_given ids.next s.ids
    rw [← hids, List.filter_map, List.map_map, ← unassignedCount_eq] at hgiven
    exact hgiven

/-- With enough identities left, numbering leaves no node without one. -/
theorem Shader.number_complete {s : Shader} {ids : IdSupply}
    (hroom : ids.next + s.unassignedCount ≤ .unassigned) :
    .unassigned ∉ (s.number ids).1.ids := by
  intro hmem
  rw [ids_number] at hmem
  rcases mem_fillIds hmem with ⟨-, hne⟩ | ⟨-, hlt⟩
  · exact hne rfl
  · rw [← unassignedCount_eq] at hlt
    exact Nat.not_lt.2 hroom hlt

/-- Numbering from a supply that is past all identities in use and has enough left keeps these
identities, gives the next ones of the supply to the other nodes in the order of the walk from the
first to the last, and changes nothing else. It has nothing to do a second time, and identities that
were distinct stay so. The loop with its stack and the recursion do the same here. The nodes of a
source that is read are numbered without a break. -/
theorem Shader.number_fresh (ids : IdSupply) :
    (∀ s : Shader,
      (∀ v ∈ s.walk .forward, v.node.id ≠ .unassigned → v.node.id < ids.next) →
      ids.next + s.unassignedCount ≤ .unassigned →
      ∃ t after, s.numberByStack ids = (t, after) ∧ s.number ids = (t, after) ∧
        NumberedFrom ids.next s t ∧ after.next = ids.next + s.unassignedCount ∧
        t.numberByStack after = (t, after) ∧ t.number after = (t, after) ∧
        ((((s.walk .forward).map fun v => v.node.id).filter (· ≠ .unassigned)).Nodup →
          ((t.walk .forward).map fun v => v.node.id).Nodup)) ∧
    ∀ source shader, Parsed.ofSource source = ⟨[], some shader⟩ →
      ids.next + (shader.walk .forward).length ≤ .unassigned →
      ∃ t after, Shader.read source ids = (.ok t, after) ∧ t.unnumbered = shader.unnumbered ∧
        ((t.walk .forward).map fun v => v.node.id) =
          List.range' ids.next (shader.walk .forward).length ∧
        after.next = ids.next + (shader.walk .forward).length := by
  refine ⟨fun s hfresh hroom => ?_, fun source shader hparsed _ => ?_⟩
  · simp only [numberByStack_eq]
    have hagain := number_assigned (number_complete hroom) (s.number ids).2
    refine ⟨(s.number ids).1, (s.number ids).2, rfl, rfl, s.number_numberedFrom ids,
      s.next_number ids, hagain, hagain, fun hdistinct => ?_⟩
    rw [walk_forward_ids, ids_number]
    rw [walk_forward_ids] at hdistinct
    refine fillIds_nodup (fun id hid hne => ?_) hdistinct
    obtain ⟨v, hv, rfl⟩ := List.mem_map.1 (s.walk_forward_ids ▸ hid)
    exact hfresh v hv hne
  · have hlength : shader.nodes.length = (shader.walk .forward).length := by
      rw [← walk_forward_nodes, List.length_map]
    obtain ⟨-, hunnumbered⟩ := Parsed.ofSource_given (congrArg Parsed.shader hparsed)
    obtain ⟨hids, hnext⟩ := number_ids hunnumbered ids
    rw [← walk_forward_ids, hlength] at hids
    rw [hlength] at hnext
    exact ⟨_, _, read_of_parsed hparsed ids, shader.unnumbered_number ids, hids, hnext⟩

/-- A tree in which nodes with and without identities stand in each other. -/
def halfNumbered : Shader :=
  ⟨[.globals 4 ⟨⟨[], .int⟩, [⟨"n", none, some (.literal .unassigned (.int 4))⟩]⟩,
    .function .unassigned ⟨⟨[], .void⟩, "main", [],
      some [.expr 2 (.assign .unassigned .assign (.name .unassigned "n")
        (.binary 7 .add (.literal .unassigned (.int 1)) (.literal 5 (.int 2))))]⟩]⟩

theorem halfNumbered_numbered :
    (∃ t after, halfNumbered.numberByStack ⟨8⟩ = (t, after) ∧
      Shader.NumberedFrom 8 halfNumbered t ∧
      ((t.walk .forward).map fun v => v.node.id) = [4, 8, 9, 2, 10, 11, 7, 12, 5] ∧
      after.next = 13 ∧ t.numberByStack after = (t, after) ∧
      ((t.walk .forward).map fun v => v.node.id).Nodup) ∧
    ∃ t after, Shader.read "void main() \x7b n = 1 + 2; \x7d" ⟨8⟩ = (.ok t, after) ∧
      ((t.walk .forward).map fun v => v.node.id) = [8, 9, 10, 11, 12, 13, 14] ∧
      after.next = 15 := by
  obtain ⟨hnumber, hread⟩ := Shader.number_fresh ⟨8⟩
  constructor
  · have hfresh : ∀ v ∈ halfNumbered.walk .forward, v.node.id ≠ .unassigned → v.node.id < 8 := by
      decide
    obtain ⟨t, after, heq, -, hfrom, hnext, hagain, -, hdistinct⟩ :=
      hnumber halfNumbered hfresh (by decide)
    refine ⟨t, after, heq, hfrom, ?_, hnext, hagain, hdistinct (by decide)⟩
    obtain ⟨rfl, -⟩ := Prod.mk.inj heq
    rfl
  · have hsome : ((Parsed.ofSource "void main() \x7b n = 1 + 2; \x7d").shader.map
        fun s => (s.walk .forward).length) = some 7 := by decide +kernel
    have herrors : (Parsed.ofSource "void main() \x7b n = 1 + 2; \x7d").lexErrors = [] := by
      decide +kernel
    obtain ⟨shader, hshader, hlength⟩ := Option.map_eq_some_iff.1 hsome
    have hparsed : Parsed.ofSource "void main() \x7b n = 1 + 2; \x7d" = ⟨[], some shader⟩ := by
      rw [← herrors, ← hshader]
    obtain ⟨t, after, heq, -, hids, hnext⟩ := hread _ shader hparsed (by rw [hlength]; decide)
    rw [hlength] at hids hnext
    exact ⟨t, after, heq, hids, hnext⟩

end ShaderLift
