import Mathlib
import ShaderLift.Proofs.Replacement

/-!
A child exchanged for another of its kind. The parent has the children it had but for that one, and
takes the first child back. So what is put where a path leads is found there, the paths that part
from it lead where they led before, and the old node put back gives the old shader.
-/

namespace ShaderLift

/-- What takes the place of a node is of the same kind. -/
inductive Node.Kind where
  | declaration
  | statement
  | expression

def Node.kind : Node → Kind
  | declaration _ => .declaration
  | statement _ => .statement
  | expression _ => .expression

/-- A child in the slot gives way to the new node. -/
def exchange (slot : Slot) (new : Node) (c : Slot × Node) : Slot × Node :=
  if c.1 = slot then (c.1, new) else c

theorem exprIn_apart {slot at' : Slot} (h : at' ≠ slot) (e : Option Expr) (new : Node) :
    (exprIn at' e).map (exchange slot new) = exprIn at' e := by
  cases e <;> simp [exprIn, exchange, h]

theorem exprIn_exchange (slot : Slot) (e : Option Expr) (new : Expr) :
    (exprIn slot e).map (exchange slot (.expression new)) = exprIn slot (e.map fun _ => new) := by
  cases e <;> simp [exprIn, exchange]

theorem sizeIn_exchange (slot : Slot) (a : Option ArraySuffix) (new : Expr) :
    (sizeIn slot a).map (exchange slot (.expression new)) =
      sizeIn slot (a.map (·.setSize new)) := by
  rw [sizeIn, exprIn_exchange]
  cases a <;> rfl

theorem flatMap_modify {α β : Type} {item : α → α} (list : α → Nat → List β) {entry : β → β}
    (xs : List α) {i : Nat} (k : Nat)
    (hi : ∀ x, list (item x) (k + i) = (list x (k + i)).map entry)
    (hj : ∀ x j, j ≠ k + i → (list x j).map entry = list x j) :
    (((xs.modify i item).zipIdx k).flatMap fun x => list x.1 x.2) =
      ((xs.zipIdx k).flatMap fun x => list x.1 x.2).map entry := by
  induction xs generalizing i k with
  | nil => simp
  | cons x xs ih =>
    cases i with
    | zero =>
      have hrest : ∀ y ∈ xs.zipIdx (k + 1), list y.1 y.2 = (list y.1 y.2).map entry := by
        intro y hy
        have hle := List.le_snd_of_mem_zipIdx hy
        exact (hj y.1 y.2 (by omega)).symm
      have hx : list (item x) k = (list x k).map entry := hi x
      simp only [List.modify_zero_cons, List.zipIdx_cons, List.flatMap_cons, List.map_append,
        List.map_flatMap, hx]
      rw [List.flatMap_congr hrest]
    | succ i =>
      have hshift : k + (i + 1) = k + 1 + i := by omega
      rw [hshift] at hi hj
      simp only [List.modify_succ_cons, List.zipIdx_cons, List.flatMap_cons, List.map_append,
        ih (k + 1) hi hj, hj x k (by omega)]

theorem map_set {α : Type} {slot : Nat → Slot} (hslot : Function.Injective slot) (node : α → Node)
    (xs : List α) (i : Nat) (new : α) :
    ((xs.set i new).zipIdx.map fun x => (slot x.2, node x.1)) =
      (xs.zipIdx.map fun x => (slot x.2, node x.1)).map (exchange (slot i) (node new)) := by
  have hrow : ∀ ys : List α, (ys.zipIdx.map fun x => (slot x.2, node x.1)) =
      ys.zipIdx.flatMap fun x => [(slot x.2, node x.1)] := fun ys => List.map_eq_flatMap
  rw [List.set_eq_modify, hrow, hrow]
  refine flatMap_modify (fun x j => [(slot j, node x)]) xs 0 (fun x => ?_) fun x j hj => ?_
  · simp [exchange]
  · have hne : slot j ≠ slot i := fun heq => hj (by simpa using hslot heq)
    simp [exchange, hne]

theorem suffixes_exchange {α : Type} (array : α → Option ArraySuffix)
    (put : α → Option ArraySuffix → α) (hput : ∀ x a, array (put x a) = a) {slot : Nat → Slot}
    (hslot : Function.Injective slot) (xs : List α) (i : Nat) (new : Expr) :
    ((xs.modify i fun x => put x ((array x).map (·.setSize new))).zipIdx.flatMap
        fun x => sizeIn (slot x.2) (array x.1)) =
      (xs.zipIdx.flatMap fun x => sizeIn (slot x.2) (array x.1)).map
        (exchange (slot i) (.expression new)) := by
  refine flatMap_modify (fun x j => sizeIn (slot j) (array x)) xs 0 (fun x => ?_) fun x j hj => ?_
  · simp [hput, sizeIn_exchange]
  · exact exprIn_apart (fun heq => hj (by simpa using hslot heq)) _ _

theorem suffixes_apart {α : Type} (array : α → Option ArraySuffix) {slot : Nat → Slot}
    {other : Slot} (hslot : ∀ i, slot i ≠ other) (xs : List α) (new : Node) :
    (xs.zipIdx.flatMap fun x => sizeIn (slot x.2) (array x.1)).map (exchange other new) =
      xs.zipIdx.flatMap fun x => sizeIn (slot x.2) (array x.1) := by
  rw [List.map_flatMap]
  exact List.flatMap_congr fun x _ => exprIn_apart (hslot x.2) _ _

theorem statementsIn_apart {slot : Slot} (hslot : ∀ i, .body i ≠ slot) (body : List Stmt)
    (new : Node) : (statementsIn body).map (exchange slot new) = statementsIn body := by
  rw [statementsIn, List.map_map]
  exact List.map_congr_left fun x _ => if_neg (hslot x.2)

theorem Node.setChild_self {n c : Node} {slot : Slot} (hc : (slot, c) ∈ n.children) :
    n.setChild slot c = n := by
  -- the substitution of nothing
  have hnone : ∀ m : Node, m.substitute (fun _ => none) = m := fun m =>
    Node.substitute_spared fun _ _ => rfl
  have hset := Node.setChild_substitute hc (fun x _ _ => hnone x.2) rfl
  rwa [hnone, hnone] at hset

/-- With another child in a slot, a node has the children it had but for that one, and what is put
into the slot next makes of it what it would have made of the node before. -/
structure Node.Exchanges (n : Node) (slot : Slot) (c new : Node) (m : Node) : Prop where
  children : m.children = n.children.map (exchange slot new)
  again : ∀ x : Node, x.kind = c.kind → m.setChild slot x = n.setChild slot x

section

variable {slot : Slot} {c new : Node}

theorem ArraySuffix.setSize_setSize (x y : Expr) (a : ArraySuffix) :
    (a.setSize x).setSize y = a.setSize y := by
  cases a with
  | mk size => cases size <;> rfl

theorem Variables.children_setChild (v : Variables) (slot : Slot) (new : Expr) :
    (v.setChild slot new).children = v.children.map (exchange slot (.expression new)) := by
  cases slot with
  | arraySize i =>
    refine flatMap_modify
      (fun d j => sizeIn (.arraySize j) d.array ++ exprIn (.init j) d.init) v.vars 0
      (fun d => ?_) fun d j hj => ?_
    · rw [List.map_append, Nat.zero_add, sizeIn_exchange, exprIn_apart (by simp)]
    · have hne : j ≠ i := by simpa using hj
      simp [sizeIn, exprIn_apart, hne]
  | init i =>
    refine flatMap_modify
      (fun d j => sizeIn (.arraySize j) d.array ++ exprIn (.init j) d.init) v.vars 0
      (fun d => ?_) fun d j hj => ?_
    · rw [List.map_append, Nat.zero_add, exprIn_exchange, sizeIn, exprIn_apart (by simp)]
    · have hne : j ≠ i := by simpa using hj
      simp [sizeIn, exprIn_apart, hne]
  | _ => simp [setChild, children, List.map_flatMap, sizeIn, exprIn_apart]

theorem Variables.setChild_setChild (v : Variables) (slot : Slot) (x y : Expr) :
    (v.setChild slot x).setChild slot y = v.setChild slot y := by
  cases slot <;>
    simp [setChild, List.modify_modify_eq, Function.comp_def, ArraySuffix.setSize_setSize]

theorem Variables.child_expression {v : Variables} (hc : (slot, c) ∈ v.children) :
    ∃ e, c = .expression e := by
  obtain ⟨i, d, -, ⟨-, e, -, rfl⟩ | ⟨-, e, -, rfl⟩⟩ := mem_children.1 hc
  · exact ⟨e, rfl⟩
  · exact ⟨e, rfl⟩

theorem Node.exists_expression {n : Node} {e : Expr} (h : n.kind = (expression e).kind) :
    ∃ x, n = .expression x := by
  cases n with
  | expression x => exact ⟨x, rfl⟩
  | _ => cases h

theorem Node.exists_statement {n : Node} {s : Stmt} (h : n.kind = (statement s).kind) :
    ∃ x, n = .statement x := by
  cases n with
  | statement x => exact ⟨x, rfl⟩
  | _ => cases h

theorem Expr.setChild_setChild (e : Expr) (slot : Slot) (x y : Expr) :
    (e.setChild slot x).setChild slot y = e.setChild slot y := by
  cases e <;> cases slot <;> simp [setChild]

theorem Expr.children_setChild (e : Expr) (slot : Slot) (new : Expr) :
    (e.setChild slot new).children = e.children.map (exchange slot (.expression new)) := by
  cases e with
  | call id f args =>
    cases slot with
    | arg i => exact map_set (fun _ _ => Slot.arg.inj) .expression args i new
    | _ => simp [setChild, children, exchange]
  | _ => cases slot <;> simp [setChild, children, exchange]

theorem Expr.exchanges_setChild (e : Expr) (slot : Slot) (x y : Expr) :
    (Node.expression e).Exchanges slot (.expression x) (.expression y)
      (.expression (e.setChild slot y)) := by
  refine ⟨e.children_setChild slot y, fun z hz => ?_⟩
  obtain ⟨z, rfl⟩ := Node.exists_expression hz
  exact congrArg Node.expression (e.setChild_setChild slot y z)

theorem Stmt.exchanges_setChild {s : Stmt} (hc : (slot, c) ∈ s.children)
    (hkind : new.kind = c.kind) :
    (Node.statement s).Exchanges slot c new (.statement (s.setChild slot new)) := by
  cases s with
  | block id body =>
    obtain ⟨i, t, -, rfl, rfl⟩ := mem_statementsIn.1 hc
    obtain ⟨t', rfl⟩ := Node.exists_statement hkind
    refine ⟨map_set (fun _ _ => Slot.body.inj) .statement body i t', fun x hx => ?_⟩
    obtain ⟨x, rfl⟩ := Node.exists_statement hx
    simp [Node.setChild, setChild]
  | declare id vars =>
    obtain ⟨e, rfl⟩ := Variables.child_expression hc
    obtain ⟨e', rfl⟩ := Node.exists_expression hkind
    refine ⟨vars.children_setChild slot e', fun x hx => ?_⟩
    obtain ⟨x, rfl⟩ := Node.exists_expression hx
    simp [Node.setChild, setChild, Variables.setChild_setChild]
  | forLoop id init cond step body =>
    simp only [children, List.mem_append, List.mem_cons, mem_exprIn, Prod.mk.injEq,
      List.not_mem_nil, or_false] at hc
    rcases hc with ((⟨rfl, rfl⟩ | ⟨rfl, e, -, rfl⟩) | ⟨rfl, e, -, rfl⟩) | ⟨rfl, rfl⟩
    · obtain ⟨t, rfl⟩ := Node.exists_statement hkind
      refine ⟨by simp [setChild, Node.children, children, exchange, exprIn_apart], fun x hx => ?_⟩
      obtain ⟨x, rfl⟩ := Node.exists_statement hx
      rfl
    · obtain ⟨x, rfl⟩ := Node.exists_expression hkind
      refine ⟨by simp [setChild, Node.children, children, exprIn_exchange, exprIn_apart, exchange],
        fun y hy => ?_⟩
      obtain ⟨y, rfl⟩ := Node.exists_expression hy
      simp [Node.setChild, setChild, Function.comp_def]
    · obtain ⟨x, rfl⟩ := Node.exists_expression hkind
      refine ⟨by simp [setChild, Node.children, children, exprIn_exchange, exprIn_apart, exchange],
        fun y hy => ?_⟩
      obtain ⟨y, rfl⟩ := Node.exists_expression hy
      simp [Node.setChild, setChild, Function.comp_def]
    · obtain ⟨t, rfl⟩ := Node.exists_statement hkind
      refine ⟨by simp [setChild, Node.children, children, exchange, exprIn_apart], fun x hx => ?_⟩
      obtain ⟨x, rfl⟩ := Node.exists_statement hx
      rfl
  | ret id e =>
    obtain ⟨rfl, x, -, rfl⟩ := mem_exprIn.1 hc
    obtain ⟨x', rfl⟩ := Node.exists_expression hkind
    refine ⟨(exprIn_exchange .expr e x').symm, fun y hy => ?_⟩
    obtain ⟨y, rfl⟩ := Node.exists_expression hy
    simp [Node.setChild, setChild, Function.comp_def]
  | expr id e =>
    simp only [children, List.mem_singleton, Prod.mk.injEq] at hc
    obtain ⟨rfl, rfl⟩ := hc
    obtain ⟨x, rfl⟩ := Node.exists_expression hkind
    refine ⟨by simp [setChild, Node.children, children, exchange], fun y hy => ?_⟩
    obtain ⟨y, rfl⟩ := Node.exists_expression hy
    rfl
  | ifThen id cond yes | whileLoop id cond body | doWhile id body cond =>
    simp only [children, List.mem_cons, List.not_mem_nil, or_false, Prod.mk.injEq] at hc
    rcases hc with ⟨rfl, rfl⟩ | ⟨rfl, rfl⟩ <;> cases new <;> cases hkind <;>
      exact ⟨by simp [setChild, Node.children, children, exchange], fun x hx => by
        cases x <;> cases hx
        rfl⟩
  | ifElse id cond yes no =>
    simp only [children, List.mem_cons, List.not_mem_nil, or_false, Prod.mk.injEq] at hc
    rcases hc with ⟨rfl, rfl⟩ | ⟨rfl, rfl⟩ | ⟨rfl, rfl⟩ <;> cases new <;> cases hkind <;>
      exact ⟨by simp [setChild, Node.children, children, exchange], fun x hx => by
        cases x <;> cases hx
        rfl⟩
  | jump id k | empty id => simp [children] at hc

theorem Declaration.exchanges_setChild {d : Declaration} (hc : (slot, c) ∈ d.children)
    (hkind : new.kind = c.kind) :
    (Node.declaration d).Exchanges slot c new (.declaration (d.setChild slot new)) := by
  cases d with
  | globals id vars =>
    obtain ⟨e, rfl⟩ := Variables.child_expression hc
    obtain ⟨e', rfl⟩ := Node.exists_expression hkind
    refine ⟨vars.children_setChild slot e', fun x hx => ?_⟩
    obtain ⟨x, rfl⟩ := Node.exists_expression hx
    simp [Node.setChild, setChild, Variables.setChild_setChild]
  | interfaceBlock id b =>
    obtain ⟨i, m, -, rfl, e, -, rfl⟩ := mem_suffixes.1 hc
    obtain ⟨e', rfl⟩ := Node.exists_expression hkind
    refine ⟨suffixes_exchange BlockMember.array (fun m a => { m with array := a }) (fun _ _ => rfl)
      (fun _ _ => Slot.memberArraySize.inj) b.members i e', fun x hx => ?_⟩
    obtain ⟨x, rfl⟩ := Node.exists_expression hx
    simp [Node.setChild, setChild, List.modify_modify_eq, Function.comp_def,
      ArraySuffix.setSize_setSize]
  | function id f =>
    simp only [children, List.mem_append, mem_suffixes, mem_statementsIn] at hc
    rcases hc with ⟨i, p, -, rfl, e, -, rfl⟩ | ⟨i, t, ht, rfl, rfl⟩
    · obtain ⟨e', rfl⟩ := Node.exists_expression hkind
      have hparams := suffixes_exchange Param.array (fun p a => { p with array := a })
        (fun _ _ => rfl) (fun _ _ => Slot.paramArraySize.inj) f.params i e'
      have hbody := statementsIn_apart (fun j => (by simp : Slot.body j ≠ .paramArraySize i))
        (f.body.getD []) (.expression e')
      refine ⟨?_, fun x hx => ?_⟩
      · rw [Node.children, Node.children, children, List.map_append, hbody, ← hparams]
        rfl
      · obtain ⟨x, rfl⟩ := Node.exists_expression hx
        simp [Node.setChild, setChild, List.modify_modify_eq, Function.comp_def,
          ArraySuffix.setSize_setSize]
    · obtain ⟨t', rfl⟩ := Node.exists_statement hkind
      cases hf : f.body with
      | none => simp [hf] at ht
      | some body =>
        have hbody := map_set (fun _ _ => Slot.body.inj) .statement body i t'
        have hparams := suffixes_apart Param.array
          (fun j => (by simp : Slot.paramArraySize j ≠ .body i)) f.params (.statement t')
        refine ⟨?_, fun x hx => ?_⟩
        · rw [Node.children, Node.children, children, List.map_append, hparams, hf]
          simp only [setChild, children, hf, Option.map_some, Option.getD_some]
          exact congrArg _ hbody
        · obtain ⟨x, rfl⟩ := Node.exists_statement hx
          simp [Node.setChild, setChild, Function.comp_def]
  | _ => simp [children] at hc

theorem Node.exchanges_setChild {n : Node} (hc : (slot, c) ∈ n.children)
    (hkind : new.kind = c.kind) : n.Exchanges slot c new (n.setChild slot new) := by
  cases n with
  | declaration d => exact Declaration.exchanges_setChild hc hkind
  | statement s => exact Stmt.exchanges_setChild hc hkind
  | expression e =>
    obtain ⟨x, rfl⟩ := Expr.child_expression hc
    obtain ⟨y, rfl⟩ := Node.exists_expression hkind
    exact e.exchanges_setChild slot x y

end

theorem find?_exchange (slot other : Slot) (new : Node) (children : List (Slot × Node)) :
    ((children.map (exchange slot new)).find? fun c => c.1 = other) =
      (children.find? fun c => c.1 = other).map (exchange slot new) := by
  rw [List.find?_map]
  congr 2
  funext c
  by_cases h : c.1 = slot <;> simp [exchange, h]

namespace Node

variable {n c new : Node} {slot : Slot} {path : Path}

theorem child?_setChild (hc : (slot, c) ∈ n.children) (hkind : new.kind = c.kind) (other : Slot) :
    (n.setChild slot new).child? other = if other = slot then some new else n.child? other := by
  rw [child?, (exchanges_setChild hc hkind).children, find?_exchange]
  by_cases hother : other = slot
  · subst hother
    obtain ⟨found, hfound, -⟩ := Option.map_eq_some_iff.1 (child?_eq_some.2 hc)
    have hslot : found.1 = other := by simpa using List.find?_some hfound
    simp [hfound, exchange, hslot]
  · rw [if_neg hother, child?]
    cases hfound : n.children.find? fun c => c.1 = other with
    | none => rfl
    | some found =>
      have hslot : found.1 = other := by simpa using List.find?_some hfound
      simp [exchange, hslot, hother]

theorem kind_setChild (n : Node) (slot : Slot) (new : Node) :
    (n.setChild slot new).kind = n.kind := by
  cases n <;> cases new <;> rfl

theorem kind_setAt (hc : n.at? path = some c) (hkind : new.kind = c.kind) :
    (n.setAt path new).kind = n.kind := by
  cases path with
  | nil =>
    obtain rfl := Option.some.inj hc
    exact hkind
  | cons slot path =>
    obtain ⟨d, hd, -⟩ := Option.bind_eq_some_iff.1 hc
    simp only [setAt, hd, kind_setChild]

theorem at?_setAt (hc : n.at? path = some c) (hkind : new.kind = c.kind) :
    (n.setAt path new).at? path = some new := by
  induction path generalizing n with
  | nil => rfl
  | cons slot path ih =>
    obtain ⟨d, hd, hat⟩ := Option.bind_eq_some_iff.1 hc
    have hnew := kind_setAt hat hkind
    simp only [setAt, hd, at?, child?_setChild (child?_eq_some.1 hd) hnew, if_true,
      Option.bind_some]
    exact ih hat

theorem setAt_setAt (hc : n.at? path = some c) (hkind : new.kind = c.kind) {x : Node}
    (hx : x.kind = c.kind) : (n.setAt path new).setAt path x = n.setAt path x := by
  induction path generalizing n with
  | nil => rfl
  | cons slot path ih =>
    obtain ⟨d, hd, hat⟩ := Option.bind_eq_some_iff.1 hc
    have hmem := child?_eq_some.1 hd
    have hnew := kind_setAt hat hkind
    simp only [setAt, hd, child?_setChild hmem hnew, if_true, ih hat]
    exact (exchanges_setChild hmem hnew).again _ (kind_setAt hat hx)

theorem setAt_self (hc : n.at? path = some c) : n.setAt path c = n := by
  induction path generalizing n with
  | nil => exact (Option.some.inj hc).symm
  | cons slot path ih =>
    obtain ⟨d, hd, hat⟩ := Option.bind_eq_some_iff.1 hc
    simp only [setAt, hd, ih hat, setChild_self (child?_eq_some.1 hd)]

theorem setAt_back (hc : n.at? path = some c) (hkind : new.kind = c.kind) :
    (n.setAt path new).setAt path c = n := by
  rw [setAt_setAt hc hkind rfl, setAt_self hc]

/-- Paths that neither lead to the place nor through it lead where they led before. -/
theorem at?_setAt_apart (hc : n.at? path = some c) (hkind : new.kind = c.kind) {other : Path}
    (hbelow : ¬path <+: other) (habove : ¬other <+: path) :
    (n.setAt path new).at? other = n.at? other := by
  induction path generalizing n other with
  | nil => exact absurd List.nil_prefix hbelow
  | cons slot path ih =>
    cases other with
    | nil => exact absurd List.nil_prefix habove
    | cons next other =>
      obtain ⟨d, hd, hat⟩ := Option.bind_eq_some_iff.1 hc
      simp only [setAt, hd, at?, child?_setChild (child?_eq_some.1 hd) (kind_setAt hat hkind)]
      by_cases hnext : next = slot
      · subst hnext
        rw [List.cons_prefix_cons] at hbelow habove
        rw [if_pos rfl, hd, Option.bind_some, Option.bind_some]
        exact ih hat (fun h => hbelow ⟨rfl, h⟩) fun h => habove ⟨rfl, h⟩
      · rw [if_neg hnext]

end Node

/-- What is put below a node is put into it first. -/
theorem Node.setAt_append {n m : Node} {p : Path} (h : n.at? p = some m) (q : Path) (new : Node) :
    n.setAt (p ++ q) new = n.setAt p (m.setAt q new) := by
  induction p generalizing n with
  | nil =>
    obtain rfl := Option.some.inj h
    rfl
  | cons slot p ih =>
    obtain ⟨c, hc, hat⟩ := Option.bind_eq_some_iff.1 h
    simp only [List.cons_append, setAt, hc, ih hat]

theorem modify_of_getElem? {α : Type} {xs : List α} {i : Nat} {x : α} (h : xs[i]? = some x)
    (f : α → α) : xs.modify i f = xs.set i (f x) := by
  rw [List.modify_eq_set_getElem?, h]
  rfl

namespace Shader

variable {s : Shader}

theorem setAt_topLevel {i : Nat} {d : Declaration} (hd : s.declarations[i]? = some d) {rest : Path}
    {c new : Node} (hc : (Node.declaration d).at? rest = some c) (hkind : new.kind = c.kind) :
    ∃ d', (Node.declaration d).setAt rest new = .declaration d' ∧
      s.setAt (.topLevel i :: rest) new = ⟨s.declarations.set i d'⟩ := by
  have hsame := Node.kind_setAt hc hkind
  cases hset : (Node.declaration d).setAt rest new with
  | declaration d' =>
    refine ⟨d', rfl, congrArg mk (List.ext_getElem? fun j => ?_)⟩
    rw [List.getElem?_modify, List.getElem?_set]
    by_cases hj : i = j
    · subst hj
      obtain ⟨hi, rfl⟩ := List.getElem?_eq_some_iff.1 hd
      simp [hset, hi]
    · simp [hj]
  | _ =>
    rw [hset] at hsame
    cases hsame

theorem setAt_append {m : Node} {p : Path} (h : s.at? p = some m) (q : Path) (new : Node) :
    s.setAt (p ++ q) new = s.setAt p (m.setAt q new) := by
  cases p with
  | nil => cases h
  | cons slot p =>
    cases slot with
    | topLevel i =>
      obtain ⟨d, hd, hat⟩ := Option.bind_eq_some_iff.1 h
      simp only [List.cons_append, setAt, modify_of_getElem? hd, Node.setAt_append hat]
    | _ => cases h

theorem at?_setAt {c new : Node} {path : Path} (hc : s.at? path = some c)
    (hkind : new.kind = c.kind) : (s.setAt path new).at? path = some new := by
  cases path with
  | nil => cases hc
  | cons slot rest =>
    cases slot with
    | topLevel i =>
      obtain ⟨d, hd, hat⟩ := Option.bind_eq_some_iff.1 hc
      obtain ⟨d', hset, hshader⟩ := setAt_topLevel hd hat hkind
      obtain ⟨hi, -⟩ := List.getElem?_eq_some_iff.1 hd
      have hafter := Node.at?_setAt hat hkind
      rw [hset] at hafter
      simpa [hshader, at?, hi] using hafter
    | _ => cases hc

theorem setAt_setAt {c new x : Node} {path : Path} (hc : s.at? path = some c)
    (hkind : new.kind = c.kind) (hx : x.kind = c.kind) :
    (s.setAt path new).setAt path x = s.setAt path x := by
  cases path with
  | nil => cases hc
  | cons slot rest =>
    cases slot with
    | topLevel i =>
      obtain ⟨d, hd, hat⟩ := Option.bind_eq_some_iff.1 hc
      obtain ⟨d₁, hset₁, hshader₁⟩ := setAt_topLevel hd hat hkind
      obtain ⟨d₂, hset₂, hshader₂⟩ := setAt_topLevel hd hat hx
      obtain ⟨hi, -⟩ := List.getElem?_eq_some_iff.1 hd
      have hd₁ : (s.declarations.set i d₁)[i]? = some d₁ := by simp [hi]
      have hagain : (Node.declaration d₁).setAt rest x = .declaration d₂ := by
        rw [← hset₁, ← hset₂, Node.setAt_setAt hat hkind hx]
      rw [hshader₁, hshader₂]
      simp only [setAt, modify_of_getElem? hd₁, hagain, List.set_set]
    | _ => cases hc

theorem at?_child {n c : Node} {path : Path} {slot : Slot} (hat : s.at? path = some n)
    (hc : (slot, c) ∈ n.children) : s.at? (path ++ [slot]) = some c := by
  have hne : path ≠ [] := by
    rintro rfl
    cases hat
  rw [at?_append s _ _ hne, hat, Option.bind_some, Node.at?, Node.child?_eq_some.2 hc]
  rfl

theorem visit?_eq_some {id : NodeId} {v : Visit} (h : s.visit? id = some v) :
    v ∈ s.walk .backward ∧ v.node.id = id := by
  rw [visit?_eq] at h
  exact ⟨List.mem_of_find?_eq_some h, by simpa using List.find?_some h⟩

end Shader

end ShaderLift
