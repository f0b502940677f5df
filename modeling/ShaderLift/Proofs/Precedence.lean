import Mathlib
import ShaderLift.Proofs.Replacement
import ShaderLift.Proofs.ShaderRereading
import ShaderLift.Proofs.TreeText

/-!
The precedence grammar, said of trees and not of tokens: which operands an operator can have without
brackets around them. The trees that are read from a source have no others, and every such tree is
read back from its text, which has only the brackets that the tree has.
-/

namespace ShaderLift

open Lexer

/-- The operands of one operator bind tightly enough to stand next to it: what a suffix follows
takes suffixes, a prefix operator stands before nothing looser than another, and of binary operators
of one level the left one binds first. -/
def Expr.OperandsFit : Expr → Prop
  | unary _ op e => if op.isPostfix then e.level = 0 else e.level ≤ 1
  | binary _ op l r => l.level ≤ op.level + 1 ∧ r.level < op.level + 1
  | assign _ _ l _ => l.level ≤ BinaryOp.loosest + 1
  | ternary _ c _ _ => c.level ≤ BinaryOp.loosest + 1
  | index _ b _ => b.level = 0
  | member _ b _ => b.level = 0
  | _ => True

/-- All operators inside have the operands they can have. -/
def Expr.Bracketed (e : Expr) : Prop := ∀ x, .expression x ∈ e.nodes → x.OperandsFit

/-- The names and numbers of one expression are ones that its text says as they are. -/
def Expr.Worded : Expr → Prop
  | literal _ (.int v) => 0 ≤ v
  | literal _ (.float v) => v.isFinite ∧ v.negative = false
  | name _ n => ProperName n
  | call _ f _ => ProperName f
  | member _ (literal _ (.int _)) _ => False
  | member _ _ f => ProperName f
  | _ => True

def Node.WellFormed : Node → Prop
  | declaration d => d.WellFormed
  | statement s => s.WellFormed
  | expression e => e.WellFormed

section

variable {slot : Slot} {c : Node}

theorem suffix_wellFormed {a : Option ArraySuffix} (h : ∀ x ∈ a, x.WellFormed) {e : Expr}
    (he : a.bind ArraySuffix.size = some e) : e.WellFormed := by
  obtain ⟨x, hx, hsize⟩ := Option.bind_eq_some_iff.1 he
  exact h x hx e hsize

theorem Variables.WellFormed.child {v : Variables} (h : v.WellFormed)
    (hc : (slot, c) ∈ v.children) : c.WellFormed := by
  obtain ⟨i, d, hd, ⟨-, e, he, rfl⟩ | ⟨-, e, he, rfl⟩⟩ := mem_children.1 hc
  · exact suffix_wellFormed (h.2.2 d (List.mem_of_getElem? hd)).2.1 he
  · exact (h.2.2 d (List.mem_of_getElem? hd)).2.2 e he

theorem Expr.WellFormed.child {e : Expr} (h : e.WellFormed) (hc : (slot, c) ∈ e.children) :
    c.WellFormed := by
  cases e with
  | call id f args =>
    obtain ⟨i, x, hx, -, rfl⟩ := mem_args.1 hc
    exact Grammar.wellFormedArgs_iff.1 h.2 x (List.mem_of_getElem? hx)
  | _ => simp [children] at hc <;> simp only [WellFormed] at h <;> grind [Node.WellFormed]

theorem Stmt.WellFormed.child {s : Stmt} (h : s.WellFormed) (hc : (slot, c) ∈ s.children) :
    c.WellFormed := by
  cases s with
  | block id body =>
    obtain ⟨i, t, ht, -, rfl⟩ := mem_statementsIn.1 hc
    exact Grammar.wellFormedBody_iff.1 h t (List.mem_of_getElem? ht)
  | declare id vars => exact Variables.WellFormed.child h hc
  | _ =>
    simp [children, mem_exprIn] at hc <;> simp only [WellFormed] at h <;> grind [Node.WellFormed]

theorem Declaration.WellFormed.child {d : Declaration} (h : d.WellFormed)
    (hc : (slot, c) ∈ d.children) : c.WellFormed := by
  cases d with
  | globals id vars => exact Variables.WellFormed.child h hc
  | interfaceBlock id b =>
    obtain ⟨i, m, hm, -, e, he, rfl⟩ := mem_suffixes.1 hc
    exact suffix_wellFormed (h.2.2.2.1 m (List.mem_of_getElem? hm)).2.2 he
  | function id f =>
    simp only [children, List.mem_append, mem_suffixes, mem_statementsIn] at hc
    rcases hc with ⟨i, p, hp, -, e, he, rfl⟩ | ⟨i, t, ht, -, rfl⟩
    · exact suffix_wellFormed (h.2.2.1 p (List.mem_of_getElem? hp)).2.2 he
    · cases hf : f.body with
      | none => simp [hf] at ht
      | some body =>
        rw [hf] at ht
        exact Grammar.wellFormedBody_iff.1 (h.2.2.2.2 body hf) t (List.mem_of_getElem? ht)
  | _ => simp [children] at hc

theorem Node.WellFormed.child {n : Node} (h : n.WellFormed) (hc : (slot, c) ∈ n.children) :
    c.WellFormed := by
  cases n with
  | declaration d => exact Declaration.WellFormed.child h hc
  | statement s => exact Stmt.WellFormed.child h hc
  | expression e => exact Expr.WellFormed.child h hc

end

theorem Node.WellFormed.inside {n m : Node} (h : n.WellFormed) (hm : m ∈ n.nodes) :
    m.WellFormed := by
  induction n using Node.induction with
  | step n ih =>
    rw [nodes_eq, List.mem_cons, childNodes, List.mem_flatMap] at hm
    rcases hm with rfl | ⟨x, hx, hm⟩
    · exact h
    · exact ih x.1 x.2 hx (h.child hx) hm

theorem Shader.WellFormed.inside {s : Shader} (h : s.WellFormed) {n : Node} (hn : n ∈ s.nodes) :
    n.WellFormed := by
  obtain ⟨d, hd, hn⟩ := List.mem_flatMap.1 hn
  exact Node.WellFormed.inside (n := .declaration d) (h d hd) hn

namespace Expr

theorem Worded.member {id : NodeId} {b : Expr} {f : String} (h : (member id b f).Worded) :
    ProperName f := by
  rw [Worded.eq_def] at h
  grind

theorem wellFormed_of_children {e : Expr} (hfit : e.OperandsFit) (hworded : e.Worded)
    (hchildren : ∀ slot x, (slot, .expression x) ∈ e.children → x.WellFormed) : e.WellFormed := by
  cases e with
  | literal id v =>
    cases v with
    | float v => exact hworded
    | _ => trivial
  | name id n => exact hworded
  | paren id e => exact hchildren .operand e (by simp [children])
  | unary id op e =>
    refine ⟨hchildren .operand e (by simp [children]), ?_⟩
    simp only [OperandsFit] at hfit
    split <;> simp_all
  | binary id op l r =>
    exact ⟨hchildren .lhs l (by simp [children]), hchildren .rhs r (by simp [children]), hfit.1,
      Nat.le_of_lt_succ hfit.2⟩
  | assign id op l r =>
    exact ⟨hchildren .lhs l (by simp [children]), hchildren .rhs r (by simp [children]), hfit⟩
  | ternary id c y n =>
    exact ⟨hchildren .cond c (by simp [children]), hchildren .yes y (by simp [children]),
      hchildren .no n (by simp [children]), hfit⟩
  | call id f args =>
    refine ⟨hworded, Grammar.wellFormedArgs_iff.2 fun x hx => ?_⟩
    obtain ⟨i, hi⟩ := List.getElem?_of_mem hx
    exact hchildren (.arg i) x (mem_args.2 ⟨i, x, hi, rfl, rfl⟩)
  | index id b i =>
    exact ⟨hchildren .base b (by simp [children]), hchildren .position i (by simp [children]), hfit⟩
  | member id b f => exact ⟨hchildren .base b (by simp [children]), hworded.member, hfit⟩

theorem Bracketed.wellFormed {e : Expr} (h : e.Bracketed)
    (hworded : ∀ x, .expression x ∈ e.nodes → x.Worded) : e.WellFormed := by
  induction hn : Node.expression e using Node.induction generalizing e with
  | step n ih =>
    subst hn
    have hself := Node.mem_nodes_self (.expression e)
    refine wellFormed_of_children (h e hself) (hworded e hself) fun slot x hx => ?_
    have hinside := Node.nodes_subset (n := .expression e) hx
    exact ih slot (.expression x) hx (fun y hy => h y (hinside hy))
      (fun y hy => hworded y (hinside hy)) rfl

end Expr

end ShaderLift
