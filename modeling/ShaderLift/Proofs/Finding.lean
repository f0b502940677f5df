import Mathlib
import ShaderLift.Proofs.JobRereading

/-!
The promotions of a job once some of them were applied. What is put in the place of a literal is
not looked into any more, and around it nothing opens or closes, so exactly the applied promotions
are gone from the list.
-/

namespace ShaderLift

section

variable {onNode : Node → Node} {onExpr : Expr → Expr} {onSuffix : ArraySuffix → ArraySuffix}

theorem exprIn_map (hexpr : ∀ e, onNode (.expression e) = .expression (onExpr e)) (slot : Slot)
    (e : Option Expr) :
    exprIn slot (e.map onExpr) = (exprIn slot e).map fun c => (c.1, onNode c.2) := by
  cases e <;> simp [exprIn, hexpr]

theorem sizeIn_map (hexpr : ∀ e, onNode (.expression e) = .expression (onExpr e))
    (hsuffix : ∀ a, (onSuffix a).size = a.size.map onExpr) (slot : Slot) (a : Option ArraySuffix) :
    sizeIn slot (a.map onSuffix) = (sizeIn slot a).map fun c => (c.1, onNode c.2) := by
  cases a with
  | none => rfl
  | some a =>
    rw [Option.map_some, sizeIn, Option.bind_some, hsuffix]
    exact exprIn_map hexpr slot a.size

theorem statementsIn_map {onStmt : Stmt → Stmt} (hstmt : ∀ s, onNode (.statement s) = .statement (onStmt s))
    (body : List Stmt) :
    statementsIn (body.map onStmt) = (statementsIn body).map fun c => (c.1, onNode c.2) := by
  simp [statementsIn, List.zipIdx_map, hstmt, Function.comp_def]

theorem suffixes_map {α : Type} (hexpr : ∀ e, onNode (.expression e) = .expression (onExpr e))
    (hsuffix : ∀ a, (onSuffix a).size = a.size.map onExpr) (array : α → Option ArraySuffix)
    (new : α → α) (hnew : ∀ x, array (new x) = (array x).map onSuffix) (slot : Nat → Slot)
    (xs : List α) :
    ((xs.map new).zipIdx.flatMap fun (x, i) => sizeIn (slot i) (array x)) =
      (xs.zipIdx.flatMap fun (x, i) => sizeIn (slot i) (array x)).map
        fun c => (c.1, onNode c.2) := by
  simp [List.zipIdx_map, List.flatMap_map, List.map_flatMap, hnew, sizeIn_map hexpr hsuffix]

theorem Variables.children_map (hexpr : ∀ e, onNode (.expression e) = .expression (onExpr e))
    (hsuffix : ∀ a, (onSuffix a).size = a.size.map onExpr) (v : Variables) :
    Variables.children { v with vars := v.vars.map fun d =>
        { d with array := d.array.map onSuffix, init := d.init.map onExpr } } =
      v.children.map fun c => (c.1, onNode c.2) := by
  simp [children, List.zipIdx_map, List.flatMap_map, List.map_flatMap, exprIn_map hexpr,
    sizeIn_map hexpr hsuffix]

end

section

variable (σ : Substitution)

theorem exprIn_substitute (slot : Slot) (e : Option Expr) :
    exprIn slot (e.map (Expr.substitute σ)) =
      (exprIn slot e).map fun c => (c.1, c.2.substitute σ) :=
  exprIn_map (fun _ => rfl) slot e

theorem statementsIn_substitute (body : List Stmt) :
    statementsIn (Stmt.substituteBody σ body) =
      (statementsIn body).map fun c => (c.1, c.2.substitute σ) := by
  rw [Stmt.substituteBody_eq]
  exact statementsIn_map (fun _ => rfl) body

theorem Variables.children_substitute (v : Variables) :
    (v.substitute σ).children = v.children.map fun c => (c.1, c.2.substitute σ) :=
  children_map (fun _ => rfl) (fun a => (rfl : (a.substitute σ).size = _)) v

theorem suffixes_substitute {α : Type} (array : α → Option ArraySuffix) (new : α → α)
    (hnew : ∀ x, array (new x) = (array x).map (ArraySuffix.substitute σ)) (slot : Nat → Slot)
    (xs : List α) :
    ((xs.map new).zipIdx.flatMap fun (x, i) => sizeIn (slot i) (array x)) =
      (xs.zipIdx.flatMap fun (x, i) => sizeIn (slot i) (array x)).map
        fun c => (c.1, c.2.substitute σ) :=
  suffixes_map (fun _ => rfl) (fun _ => rfl) array new hnew slot xs

theorem Node.children_substitute {n : Node} (h : σ n.id = none) :
    (n.substitute σ).children = n.children.map fun c => (c.1, c.2.substitute σ) := by
  cases n with
  | declaration d =>
    cases d with
    | globals id vars => exact Variables.children_substitute σ vars
    | interfaceBlock id b =>
      exact suffixes_substitute σ BlockMember.array (BlockMember.substitute σ) (fun _ => rfl) _ _
    | function id f =>
      have hparams := suffixes_substitute σ Param.array (Param.substitute σ) (fun _ => rfl)
        Slot.paramArraySize f.params
      have hbody : (f.body.map (Stmt.substituteBody σ)).getD [] =
          Stmt.substituteBody σ (f.body.getD []) := by cases f.body <;> rfl
      have hstatements := statementsIn_substitute σ (f.body.getD [])
      rw [← hbody] at hstatements
      exact (congrArg₂ (· ++ ·) hparams hstatements).trans List.map_append.symm
    | _ => rfl
  | statement s =>
    cases s <;>
      simp [substitute, Stmt.substitute, children, Stmt.children, exprIn_substitute,
        statementsIn_substitute, Variables.children_substitute]
  | expression e =>
    cases e with
    | call id f args =>
      simp only [Node.id, Expr.id] at h
      simp [substitute, Expr.substitute, h, children, Expr.children, Expr.substituteArgs_eq,
        List.zipIdx_map, Function.comp_def]
    | _ =>
      simp only [Node.id, Expr.id] at h
      simp [substitute, Expr.substitute, h, children, Expr.children]

end

theorem Node.id_substitute {σ : Substitution} {n : Node} (h : σ n.id = none) :
    (n.substitute σ).id = n.id := by
  cases n with
  | declaration d => cases d <;> rfl
  | statement s => cases s <;> rfl
  | expression e =>
    cases e <;> simp only [Node.id, Expr.id] at h <;>
      simp [substitute, Expr.substitute, h, Node.id, Expr.id]

namespace Node

def promotionsAt (stage : Stage) (depth : Nat) (n : Node) : List Promotion :=
  n.promotionsFuel stage n.size depth

theorem size_lt_of_mem_open {n c : Node} (h : c ∈ n.openChildren) : c.size < n.size := by
  rw [openChildren] at h
  split at h
  · simp at h
  · obtain ⟨⟨slot, c'⟩, hc, rfl⟩ := List.mem_map.1 h
    exact size_lt_of_mem (List.mem_of_mem_filter hc)

theorem promotionsFuel_congr (stage : Stage) (a b depth : Nat) (n : Node) (ha : n.size ≤ a)
    (hb : n.size ≤ b) : n.promotionsFuel stage a depth = n.promotionsFuel stage b depth := by
  induction a generalizing b depth n with
  | zero => have h := n.size_children; omega
  | succ a ih =>
    cases b with
    | zero => have h := n.size_children; omega
    | succ b =>
      simp only [promotionsFuel]
      refine congrArg _ (List.flatMap_congr fun c hc => ?_)
      have hlt := size_lt_of_mem_open hc
      exact ih b (depth + 1) c (by omega) (by omega)

theorem promotionsAt_eq (stage : Stage) (depth : Nat) (n : Node) :
    n.promotionsAt stage depth =
      (n.literal?.map fun (id, x) => (⟨stage, id, x, depth⟩ : Promotion)).toList ++
        n.openChildren.flatMap (promotionsAt stage (depth + 1)) := by
  have h := n.size_children
  rw [promotionsAt, h, promotionsFuel]
  refine congrArg _ (List.flatMap_congr fun c hc => ?_)
  have hlt := size_lt_of_mem_open hc
  exact promotionsFuel_congr stage _ _ _ c (by omega) (Nat.le_refl _)

theorem literal?_eq_some {n : Node} {id : NodeId} {x : Scalar} (h : n.literal? = some (id, x)) :
    ∃ v, n = .expression (.literal id v) ∧ Scalar.ofLiteral? v = some x := by
  cases n with
  | expression e =>
    cases e with
    | literal i v =>
      obtain ⟨y, hy, heq⟩ := Option.map_eq_some_iff.1 h
      obtain ⟨rfl, rfl⟩ := Prod.mk.inj heq
      exact ⟨v, rfl, hy⟩
    | _ => cases h
  | _ => cases h

theorem mem_openChildren {n c : Node} (h : c ∈ n.openChildren) : ∃ slot, (slot, c) ∈ n.children := by
  rw [openChildren] at h
  split at h
  · simp at h
  · obtain ⟨⟨slot, c'⟩, hc, rfl⟩ := List.mem_map.1 h
    exact ⟨slot, List.mem_of_mem_filter hc⟩

theorem mem_promotionsAt {stage : Stage} {depth : Nat} {n : Node} {p : Promotion}
    (h : p ∈ n.promotionsAt stage depth) :
    p.stage = stage ∧ ∃ v, .expression (.literal p.node v) ∈ n.nodes ∧
      Scalar.ofLiteral? v = some p.value := by
  induction n using Node.induction generalizing depth with
  | step n ih =>
    rw [promotionsAt_eq, List.mem_append, Option.mem_toList, List.mem_flatMap] at h
    rcases h with h | ⟨c, hc, h⟩
    · obtain ⟨⟨id, x⟩, hliteral, rfl⟩ := Option.map_eq_some_iff.1 h
      obtain ⟨v, rfl, hx⟩ := literal?_eq_some hliteral
      exact ⟨rfl, v, mem_nodes_self _, hx⟩
    · obtain ⟨slot, hslot⟩ := mem_openChildren hc
      obtain ⟨hstage, v, hv, hx⟩ := ih slot c hslot h
      exact ⟨hstage, v, nodes_subset hslot hv, hx⟩

theorem openChildren_sublist (n : Node) : n.openChildren.Sublist (n.children.map Prod.snd) := by
  rw [openChildren]
  split
  · exact List.nil_sublist _
  · exact List.filter_sublist.map _

theorem promotionsAt_ids (stage : Stage) (depth : Nat) (n : Node) :
    ((n.promotionsAt stage depth).map Promotion.node).Sublist n.ids := by
  induction n using Node.induction generalizing depth with
  | step n ih =>
    have hopen : ((n.openChildren.flatMap (promotionsAt stage (depth + 1))).map
        Promotion.node).Sublist (n.openChildren.flatMap ids) := by
      rw [List.map_flatMap]
      refine List.Sublist.flatMap_right _ fun c hc => ?_
      obtain ⟨slot, hslot⟩ := mem_openChildren hc
      exact ih slot c hslot (depth + 1)
    have hchildren : (n.openChildren.flatMap ids).Sublist ((childNodes n.children).map Node.id) := by
      have h := (openChildren_sublist n).flatMap ids
      rw [List.flatMap_map] at h
      rw [childNodes, List.map_flatMap]
      exact h
    rw [promotionsAt_eq, ids, nodes_eq, List.map_append, List.map_cons]
    cases hliteral : n.literal? with
    | none => exact (hopen.trans hchildren).trans (List.sublist_cons_self _ _)
    | some found =>
      obtain ⟨id, x⟩ := found
      obtain ⟨v, rfl, -⟩ := literal?_eq_some hliteral
      exact List.Sublist.cons_cons _ (hopen.trans hchildren)

end Node

theorem Expr.readsLiteralArray_iff {e : Expr} :
    e.readsLiteralArray ↔ ∃ (type : ScalarType) (i j k : NodeId) (v : Literal),
      e = .index i (.name j type.arrayName) (.literal k v) := by
  constructor
  · intro h
    cases e with
    | index i b p =>
      cases b with
      | name j x =>
        cases p with
        | literal k v =>
          simp only [readsLiteralArray, Bool.and_eq_true, Bool.or_eq_true, decide_eq_true_eq] at h
          rcases h.1 with rfl | rfl
          · exact ⟨.int, i, j, k, v, rfl⟩
          · exact ⟨.float, i, j, k, v, rfl⟩
        | _ => simp [readsLiteralArray, literal?] at h
      | _ => cases h
    | _ => cases h
  · rintro ⟨type, i, j, k, v, rfl⟩
    cases type <;> rfl

/-- Every node with the identity is a literal. -/
def LiteralAt (id : NodeId) (nodes : List Node) : Prop :=
  ∀ n ∈ nodes, n.id = id → ∃ v, n = .expression (.literal id v)

namespace Node

section

variable {id : NodeId} {new : Expr}

theorem promotionsAt_of_sealed {stage : Stage} {depth : Nat} {n : Node} (h : n.isSealed) :
    n.promotionsAt stage depth = [] := by
  have hliteral : n.literal? = none := by
    cases hn : n.literal? with
    | none => rfl
    | some found =>
      obtain ⟨v, rfl, -⟩ := literal?_eq_some hn
      cases h
  rw [promotionsAt_eq, hliteral, openChildren, if_pos h]
  rfl

theorem literal?_substitute {n : Node} (hid : n.id ≠ id) :
    (n.substitute (.single id new)).literal? = n.literal? := by
  cases n with
  | expression e =>
    cases e <;> simp only [Node.id, Expr.id] at hid <;>
      simp [substitute, Expr.substitute, Substitution.single, hid, literal?]
  | _ => rfl

theorem eq_of_substitute (hnew : new.readsLiteralArray) {e e' : Expr}
    (h : e.substitute (.single id new) = e') (hleaf : e'.children = []) : e = e' := by
  subst h
  by_cases hid : e.id = id
  · obtain ⟨type, i, j, k, v, rfl⟩ := Expr.readsLiteralArray_iff.1 hnew
    rw [Expr.substitute_root (if_pos hid)] at hleaf
    cases hleaf
  · have hroot : Substitution.single id new (expression e).id = none := if_neg hid
    have hnone : (expression e).children = [] :=
      List.map_eq_nil_iff.1 ((children_substitute _ hroot).symm.trans hleaf)
    have hnodes : e.nodes = [expression e] := by
      have h := (expression e).nodes_eq
      rwa [hnone] at h
    exact (e.substitute_spared (by simp [hnodes, hroot])).symm

/-- Around an element of a literal array nothing is sealed that was open. -/
theorem isSealed_substitute (hnew : new.readsLiteralArray) {n : Node}
    (hid : n.id ≠ id) (hopen : n.isSealed = false) :
    (n.substitute (.single id new)).isSealed = false := by
  cases n with
  | declaration d => rfl
  | statement s =>
    cases s with
    | declare i vars => exact hopen
    | _ => rfl
  | expression e =>
    cases e with
    | index i b p =>
      simp only [Node.id, Expr.id] at hid
      simp only [substitute, Expr.substitute, Substitution.single, hid, if_false, Option.getD_none]
      refine Bool.eq_false_iff.2 fun h => ?_
      obtain ⟨type, i', j, k, v, heq⟩ := Expr.readsLiteralArray_iff.1 h
      obtain ⟨-, hb, hp⟩ := Expr.index.inj heq
      have hsealed : (Expr.index i b p).readsLiteralArray :=
        Expr.readsLiteralArray_iff.2 ⟨type, i, j, k, v, by
          rw [eq_of_substitute hnew hb rfl, eq_of_substitute hnew hp rfl]⟩
      rw [isSealed, hsealed] at hopen
      cases hopen
    | _ =>
      simp only [Node.id, Expr.id] at hid
      simp [substitute, Expr.substitute, Substitution.single, hid, isSealed, Expr.readsLiteralArray]

theorem openChildren_substitute (hnew : new.readsLiteralArray) {n : Node} (hid : n.id ≠ id)
    (hopen : n.isSealed = false) :
    (n.substitute (.single id new)).openChildren =
      n.openChildren.map (substitute (.single id new)) := by
  have hroot : Substitution.single id new n.id = none := if_neg hid
  simp [openChildren, isSealed_substitute hnew hid hopen, hopen, children_substitute _ hroot,
    List.filter_map, Function.comp_def]

theorem promotionsAt_sealed_substitute (stage : Stage) (hnew : new.readsLiteralArray) {n : Node}
    (h : LiteralAt id n.nodes) (hid : n.id ≠ id) (hsealed : n.isSealed) (depth : Nat) :
    (n.substitute (.single id new)).promotionsAt stage depth = [] := by
  cases n with
  | declaration d => cases hsealed
  | statement s =>
    cases s with
    | declare i vars => exact promotionsAt_of_sealed hsealed
    | _ => cases hsealed
  | expression e =>
    obtain ⟨type, i, j, k, v, rfl⟩ := Expr.readsLiteralArray_iff.1 hsealed
    have hi : i ≠ id := hid
    have hj : j ≠ id := by
      intro hj
      obtain ⟨w, hw⟩ := h (.expression (.name j type.arrayName)) (by simp [nodes, Expr.nodes]) hj
      cases hw
    by_cases hk : k = id
    · -- the index is open now, but both its base and its position are without promotions
      simp only [substitute, Expr.substitute, Substitution.single, hi, hj, hk, if_false, if_true,
        Option.getD_none, Option.getD_some]
      rw [promotionsAt_eq]
      refine List.append_eq_nil_iff.2 ⟨rfl, List.flatMap_eq_nil_iff.2 fun c hc => ?_⟩
      obtain ⟨slot, hslot⟩ := mem_openChildren hc
      simp only [children, Expr.children, List.mem_cons, Prod.mk.injEq, List.not_mem_nil,
        or_false] at hslot
      rcases hslot with ⟨-, rfl⟩ | ⟨-, rfl⟩
      · rfl
      · exact promotionsAt_of_sealed hnew
    · simp only [substitute, Expr.substitute, Substitution.single, hi, hj, hk, if_false,
        Option.getD_none]
      exact promotionsAt_of_sealed hsealed

/-- Substituting an element for a literal takes the promotion of that literal from the list. -/
theorem promotionsAt_substitute (stage : Stage) (hnew : new.readsLiteralArray) {n : Node}
    (h : LiteralAt id n.nodes) (depth : Nat) :
    (n.substitute (.single id new)).promotionsAt stage depth =
      (n.promotionsAt stage depth).filter fun p => p.node ≠ id := by
  induction n using Node.induction generalizing depth with
  | step n ih =>
    by_cases hid : n.id = id
    -- the literal itself: what takes its place is sealed, so nothing below it is found
    · obtain ⟨v, rfl⟩ := h n (mem_nodes_self n) hid
      have hgone : (expression (.literal id v)).substitute (.single id new) = .expression new := by
        simp [substitute, Expr.substitute, Substitution.single]
      have hnone : (expression (.literal id v)).openChildren = [] := rfl
      rw [hgone, promotionsAt_of_sealed (n := expression new) hnew, promotionsAt_eq, hnone]
      cases hx : Scalar.ofLiteral? v <;> simp [literal?, hx]
    · cases hsealed : n.isSealed with
      | true =>
        rw [promotionsAt_sealed_substitute stage hnew h hid hsealed,
          promotionsAt_of_sealed hsealed, List.filter_nil]
      | false =>
        have hself : (n.literal?.map fun (i, x) => (⟨stage, i, x, depth⟩ : Promotion)).toList.filter
            (fun p => p.node ≠ id) =
            (n.literal?.map fun (i, x) => (⟨stage, i, x, depth⟩ : Promotion)).toList := by
          cases hliteral : n.literal? with
          | none => rfl
          | some found =>
            obtain ⟨i, x⟩ := found
            obtain ⟨v, rfl, -⟩ := literal?_eq_some hliteral
            have hi : i ≠ id := hid
            simp [hi]
        rw [promotionsAt_eq, literal?_substitute hid, openChildren_substitute hnew hid hsealed,
          promotionsAt_eq, List.filter_append, hself, List.filter_flatMap, List.flatMap_map]
        refine congrArg _ (List.flatMap_congr fun c hc => ?_)
        obtain ⟨slot, hslot⟩ := mem_openChildren hc
        exact ih slot c hslot (fun m hm => h m (nodes_subset hslot hm)) (depth + 1)

end

end Node

namespace Shader

theorem promotions_eq (stage : Stage) (s : Shader) :
    s.promotions stage = (s.functions.filter Declaration.hasBody).flatMap fun d =>
      (Node.declaration d).promotionsAt stage 0 := by
  have hfunctions : s.functions.filter Declaration.hasBody =
      s.declarations.filter Declaration.hasBody := by
    rw [functions, List.filter_filter]
    refine List.filter_congr fun d _ => ?_
    cases d <;> simp [Declaration.hasBody, Declaration.isFunction]
  rw [hfunctions]
  rfl

theorem substitute_functions (σ : Substitution) (s : Shader) :
    (s.substitute σ).functions = s.functions.map (Declaration.substitute σ) := by
  rw [functions, functions, substitute, List.filter_map]
  refine congrArg _ (List.filter_congr fun d _ => ?_)
  cases d <;> rfl

theorem mem_promotions {stage : Stage} {s : Shader} {p : Promotion}
    (h : p ∈ s.promotions stage) :
    p.stage = stage ∧ ∃ d ∈ s.functions, ∃ v, .expression (.literal p.node v) ∈ d.nodes ∧
      Scalar.ofLiteral? v = some p.value := by
  rw [promotions_eq] at h
  obtain ⟨d, hd, hp⟩ := List.mem_flatMap.1 h
  obtain ⟨hstage, v, hv, hvalue⟩ := Node.mem_promotionsAt hp
  exact ⟨hstage, d, List.mem_of_mem_filter hd, v, hv, hvalue⟩

theorem promotions_ids (stage : Stage) (s : Shader) :
    ((s.promotions stage).map Promotion.node).Sublist s.ids := by
  rw [promotions, List.map_flatMap, ids_eq]
  refine (List.Sublist.flatMap_right _ fun d _ => Node.promotionsAt_ids stage 0 _).trans ?_
  exact List.filter_sublist.flatMap _

theorem redeclared_promotions (stage : Stage) (s : Shader) (id : NodeId) (name : String)
    (type : ScalarType) (length : Nat) :
    (s.redeclared id name type length).promotions stage = s.promotions stage := by
  rw [promotions_eq, promotions_eq, redeclared_functions]

theorem substitute_promotions (stage : Stage) {s : Shader} {id : NodeId} {new : Expr}
    (hnew : new.readsLiteralArray) (h : LiteralAt id s.nodes) :
    (s.substitute (.single id new)).promotions stage =
      (s.promotions stage).filter fun p => p.node ≠ id := by
  have hbody : ∀ d : Declaration, (d.substitute (.single id new)).hasBody = d.hasBody := by
    intro d
    cases d with
    | function i f => simp [Declaration.substitute, Function.substitute, Declaration.hasBody]
    | _ => rfl
  rw [promotions_eq, promotions_eq, substitute_functions, List.filter_map, List.flatMap_map,
    List.filter_flatMap]
  simp only [Function.comp_def, hbody]
  refine List.flatMap_congr fun d hd => ?_
  refine Node.promotionsAt_substitute stage hnew (n := .declaration d) (fun n hn => h n ?_) 0
  exact mem_nodes_of_functions (List.mem_of_mem_filter hd) hn

end Shader

/-- What makes a promotion different from the others of its job. -/
def Promotion.place (p : Promotion) : Stage × NodeId := (p.stage, p.node)

theorem filter_ne_eq_eraseIdx {α β : Type} [DecidableEq β] {key : α → β} {xs : List α}
    (h : (xs.map key).Nodup) {i : Nat} {x : α} (hx : xs[i]? = some x) :
    xs.filter (fun y => key y ≠ key x) = xs.eraseIdx i := by
  induction xs generalizing i with
  | nil => rfl
  | cons y ys ih =>
    obtain ⟨hy, hys⟩ := List.nodup_cons.1 h
    cases i with
    | zero =>
      obtain rfl : y = x := by simpa using hx
      have hothers : ys.filter (fun z => key z ≠ key y) = ys := by
        refine List.filter_eq_self.2 fun z hz => decide_eq_true fun heq => hy ?_
        exact heq ▸ List.mem_map_of_mem hz
      simpa using hothers
    | succ i =>
      have hx : ys[i]? = some x := by simpa using hx
      have hne : key y ≠ key x := fun heq => hy (heq ▸ List.mem_map_of_mem (List.mem_of_getElem? hx))
      rw [List.filter_cons_of_pos (by simpa using hne), ih hys hx]
      rfl

namespace Job

theorem mem_promotions {job : Job} {p : Promotion} (h : p ∈ job.promotions) :
    ∃ s, (p.stage, s) ∈ job.stages ∧ p ∈ s.promotions p.stage := by
  obtain ⟨⟨stage, s⟩, hs, hp⟩ := List.mem_flatMap.1 h
  obtain ⟨rfl, -⟩ := Shader.mem_promotions hp
  exact ⟨s, hs, hp⟩

theorem promotions_nodup {job : Job} (h : job.Sound) : (job.promotions.map Promotion.place).Nodup := by
  rw [promotions, List.map_flatMap, List.nodup_flatMap]
  constructor
  · intro x hx
    refine List.Nodup.of_map Prod.snd ?_
    rw [List.map_map]
    exact (h.shaders x hx).nodup.sublist (Shader.promotions_ids x.1 x.2)
  · refine h.ordered.imp fun {x y} hlt => ?_
    intro place hx hy
    obtain ⟨p, hp, rfl⟩ := List.mem_map.1 hx
    obtain ⟨q, hq, hplace⟩ := List.mem_map.1 hy
    have hstage : y.1 = x.1 := by
      rw [← (Shader.mem_promotions hp).1, ← (Shader.mem_promotions hq).1]
      exact congrArg Prod.fst hplace
    rw [hstage] at hlt
    exact Nat.lt_irrefl _ hlt

theorem Redeclared.promotions {first last : NodeId} {type : ScalarType} {length : Nat}
    {xs ys : List (Stage × Shader)} (h : Redeclared first last type length xs ys) :
    (ys.flatMap fun y => y.2.promotions y.1) = xs.flatMap fun x => x.2.promotions x.1 := by
  induction h with
  | nil => rfl
  | cons hxy _ ih =>
    obtain ⟨hstage, id, -, -, hshader⟩ := hxy
    rw [List.flatMap_cons, List.flatMap_cons, ih, hstage, hshader, Shader.redeclared_promotions]

theorem elementAt_readsLiteralArray (id : NodeId) (type : ScalarType) (position : Nat) :
    (elementAt id type.arrayName position).readsLiteralArray :=
  Expr.readsLiteralArray_iff.2 ⟨type, _, _, _, _, rfl⟩

theorem literalAt_of_mem_promotions {job : Job} (h : job.Sound) {p : Promotion}
    (hp : p ∈ job.promotions) {s : Shader} (hs : (p.stage, s) ∈ job.stages) :
    LiteralAt p.node s.nodes := by
  obtain ⟨t, ht, hpt⟩ := mem_promotions hp
  obtain rfl := shader_unique h.ordered hs ht
  intro n hn hid
  obtain ⟨-, d, hd, v, hv, -⟩ := Shader.mem_promotions hpt
  exact ⟨v, Shader.eq_of_mem_nodes (h.shaders _ hs).nodup hn (Shader.mem_nodes_of_functions hd hv) hid⟩

/-- Reading an element in the place of a literal takes one promotion from the list. -/
theorem readElement_promotions {job : Job} (h : job.Sound) {p : Promotion}
    (hp : p ∈ job.promotions) (position : Nat) :
    (job.readElement p position).promotions =
      job.promotions.filter fun q => q.place ≠ p.place := by
  rw [promotions, promotions, readElement, List.filter_flatMap, List.flatMap_map]
  refine List.flatMap_congr fun x hx => ?_
  change Shader.promotions x.1 (x.2.substitute _) = (x.2.promotions x.1).filter _
  by_cases hstage : x.1 = p.stage
  · have hliteral : LiteralAt p.node x.2.nodes := literalAt_of_mem_promotions h hp (hstage ▸ hx)
    have hreads : (elementAt job.ids.next p.arrayName position).readsLiteralArray :=
      elementAt_readsLiteralArray _ p.value.type _
    rw [Promotion.substitution, if_pos hstage, Shader.substitute_promotions x.1 hreads hliteral]
    refine List.filter_congr fun q hq => ?_
    simp [Promotion.place, (Shader.mem_promotions hq).1, hstage]
  · rw [Promotion.substitution, if_neg hstage, Shader.substitute_spared fun _ _ => rfl]
    refine (List.filter_eq_self.2 fun q hq => ?_).symm
    simp [Promotion.place, (Shader.mem_promotions hq).1, hstage]

theorem apply_promotions {job after : Job} (h : job.Sound) {p : Promotion}
    (hp : p ∈ job.promotions) (happly : job.apply p = (.ok (), after)) :
    after.promotions = job.promotions.filter fun q => q.place ≠ p.place := by
  obtain ⟨s, position, values, declared, -, hdeclares, -, rfl⟩ := apply_eq_ok h happly
  have hsame : declared.promotions = job.promotions := hdeclares.stages.promotions
  rw [readElement_promotions (hdeclares.sound h) (hsame ▸ hp), hsame]

/-- The arrays of all promotions are in the metadata. -/
def Settled (job : Job) : Prop := ∀ p ∈ job.promotions, job.metadata.hasUniform p.arrayName

theorem reserveArray_of_hasUniform {job : Job} {type : ScalarType}
    (h : job.metadata.hasUniform type.arrayName) : job.reserveArray type = (.ok (), job) :=
  reserveArray_eq_ok.2 ⟨job.metadata, Metadata.reserve_eq_ok.2 (.inl ⟨h, rfl⟩), rfl⟩

theorem Settled.findPromotions {job : Job} (h : job.Settled) :
    job.findPromotions = (.ok job.promotions, job) := by
  have hreserved : ∀ ps : List Promotion, (∀ p ∈ ps, job.metadata.hasUniform p.arrayName) →
      job.reserveArrays ps = (.ok (), job) := by
    intro ps hps
    induction ps with
    | nil => rfl
    | cons p ps ih =>
      exact reserveArrays_cons_ok.2 ⟨job, reserveArray_of_hasUniform (hps p List.mem_cons_self),
        ih fun q hq => hps q (List.mem_cons_of_mem _ hq)⟩
  exact findPromotions_eq_ok.2 ⟨rfl, hreserved _ h⟩

theorem Reserves.hasUniform {job after : Job} (h : job.Reserves after) {name : String}
    (hname : job.metadata.hasUniform name) : after.metadata.hasUniform name := by
  obtain ⟨r, hr⟩ := Option.isSome_iff_exists.1 hname
  exact Option.isSome_iff_exists.2 ⟨r, h.uniforms name r hr⟩

theorem reserveArray_hasUniform {job after : Job} {type : ScalarType}
    (h : job.reserveArray type = (.ok (), after)) : after.metadata.hasUniform type.arrayName := by
  obtain ⟨metadata, hreserve, rfl⟩ := reserveArray_eq_ok.1 h
  exact Metadata.reserve_hasUniform hreserve

theorem reserveArrays_hasUniform {ps : List Promotion} {job after : Job}
    (h : job.reserveArrays ps = (.ok (), after)) :
    ∀ p ∈ ps, after.metadata.hasUniform p.arrayName := by
  induction ps generalizing job with
  | nil => simp
  | cons p ps ih =>
    obtain ⟨next, hnext, hrest⟩ := reserveArrays_cons_ok.1 h
    intro q hq
    rcases List.mem_cons.1 hq with rfl | hq
    · exact (reserveArrays_ok hrest).hasUniform (reserveArray_hasUniform hnext)
    · exact ih hrest q hq

theorem findPromotions_settled {job after : Job} {found : List Promotion}
    (h : job.findPromotions = (.ok found, after)) :
    after.promotions = found ∧ after.Settled := by
  obtain ⟨rfl, hreserves⟩ := findPromotions_found h
  have hsame : after.promotions = job.promotions := by rw [promotions, hreserves.stages, promotions]
  exact ⟨hsame, fun p hp => reserveArrays_hasUniform (findPromotions_eq_ok.1 h).2 p (hsame ▸ hp)⟩

theorem Declares.hasUniform {job after : Job} {value : Scalar} {position : Nat}
    {values : List Scalar} (h : job.Declares value position values after) {name : String}
    (hname : job.metadata.hasUniform name) : after.metadata.hasUniform name := by
  obtain ⟨-, -, -, ⟨r, hr, -⟩, -, -, -, -, hothers⟩ := Metadata.intern_array h.interned
  by_cases heq : name = value.type.arrayName
  · rw [heq, Metadata.hasUniform, hr]
    rfl
  · rw [Metadata.hasUniform, hothers name heq]
    exact hname

theorem Settled.apply {job after : Job} (hjob : job.Sound) (h : job.Settled) {p : Promotion}
    (hp : p ∈ job.promotions) (happly : job.apply p = (.ok (), after)) : after.Settled := by
  have hpromotions := apply_promotions hjob hp happly
  obtain ⟨s, position, values, declared, -, hdeclares, -, rfl⟩ := apply_eq_ok hjob happly
  intro q hq
  rw [hpromotions] at hq
  exact hdeclares.hasUniform (h q (List.mem_of_mem_filter hq))

theorem applyAll_promotions {job : Job} {run : List Promotion} (hjob : job.Sound)
    (h : job.Settled) (hrun : run.Perm job.promotions) (hok : (job.applyAll run).failure = none) :
    (job.applyAll run).job.promotions = [] ∧ (job.applyAll run).job.Settled := by
  induction run generalizing job with
  | nil => exact ⟨hrun.symm.eq_nil, h⟩
  | cons p rest ih =>
    have hp : p ∈ job.promotions := hrun.mem_iff.1 List.mem_cons_self
    rcases happly : job.apply p with ⟨result, after⟩
    cases result with
    | error e => simp [applyAll, happly] at hok
    | ok u =>
      simp only [applyAll, happly] at hok ⊢
      -- what is still to be applied stays, up to order, what the job still has
      have hnodup : ((p :: rest).map Promotion.place).Nodup :=
        (hrun.map Promotion.place).nodup_iff.2 (promotions_nodup hjob)
      have hrest : rest.Perm after.promotions := by
        have hperm := hrun.filter fun q => q.place ≠ p.place
        rwa [filter_ne_eq_eraseIdx hnodup (i := 0) rfl, ← apply_promotions hjob hp happly] at hperm
      refine ih ?_ (h.apply hjob hp happly) hrest hok
      have hsound := hjob.apply p
      rwa [happly] at hsound

/-- Applying a promotion that was found takes that one from what is found and leaves the others, in
their order. After all of them nothing is found. Neither way does looking again change the job. -/
theorem findPromotions_after_apply {job found : Job} {ops : List Promotion} (h : job.Assembled)
    (hfind : job.findPromotions = (.ok ops, found)) :
    (∀ (i : Nat) (p : Promotion) (after : Job), ops[i]? = some p →
      found.apply p = (.ok (), after) → after.findPromotions = (.ok (ops.eraseIdx i), after)) ∧
    ∀ run : List Promotion, run.Perm ops → (found.applyAll run).failure = none →
      (found.applyAll run).job.findPromotions = (.ok [], (found.applyAll run).job) := by
  obtain ⟨rfl, hsettled⟩ := findPromotions_settled hfind
  have hsound : found.Sound := (findPromotions_found hfind).2.sound h.sound
  constructor
  · intro i p after hi happly
    have hp : p ∈ found.promotions := List.mem_of_getElem? hi
    rw [(hsettled.apply hsound hp happly).findPromotions, apply_promotions hsound hp happly,
      filter_ne_eq_eraseIdx (promotions_nodup hsound) hi]
  · intro run hrun hok
    obtain ⟨hnone, hdone⟩ := applyAll_promotions hsound hsettled hrun hok
    rw [hdone.findPromotions, hnone]

def samplePromotions : List Promotion :=
  [⟨.vertex, 4, .int 7, 3⟩, ⟨.fragment, 7, .int 7, 2⟩, ⟨.fragment, 11, .int 3, 3⟩]

theorem samplePromotions_consumed :
    ∃ found after, sample.findPromotions = (.ok samplePromotions, found) ∧
      found.apply ⟨.fragment, 7, .int 7, 2⟩ = (.ok (), after) ∧
      after.findPromotions =
        (.ok [⟨.vertex, 4, .int 7, 3⟩, ⟨.fragment, 11, .int 3, 3⟩], after) ∧
      (found.applyAll samplePromotions.reverse).failure = none ∧
      (found.applyAll samplePromotions.reverse).job.findPromotions =
        (.ok [], (found.applyAll samplePromotions.reverse).job) := by
  have hruns : ∃ found after, sample.findPromotions = (.ok samplePromotions, found) ∧
      found.apply ⟨.fragment, 7, .int 7, 2⟩ = (.ok (), after) ∧
      (found.applyAll samplePromotions.reverse).failure = none :=
    ⟨_, _, rfl, rfl, Option.isNone_iff_eq_none.1 (by decide +kernel)⟩
  obtain ⟨found, after, hfind, happly, hok⟩ := hruns
  obtain ⟨hone, hall⟩ := findPromotions_after_apply sample_assembled hfind
  exact ⟨found, after, hfind, happly, hone 1 _ after rfl happly, hok,
    hall _ (List.reverse_perm _) hok⟩

end Job
end ShaderLift
