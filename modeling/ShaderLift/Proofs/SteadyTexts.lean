import Mathlib
import ShaderLift.Proofs.TreeText

/-!
Whether a shader has the same text once its text was read. What is read has every character of the
text, and one more for each least number and for each sign in front of the sign of a number.
-/

namespace ShaderLift

open Lexer

/-- The second text is the first with `k` characters put in. -/
structure Widens (k : Nat) (a b : List Char) : Prop where
  sublist : a.Sublist b
  length : b.length = a.length + k

namespace Widens

variable {j k : Nat} {a b c d : List Char}

theorem refl (a : List Char) : Widens 0 a a := ⟨List.Sublist.refl a, rfl⟩

theorem append (h : Widens j a b) (h' : Widens k c d) : Widens (j + k) (a ++ c) (b ++ d) :=
  ⟨h.sublist.append h'.sublist, by
    rw [List.length_append, List.length_append, h.length, h'.length]
    omega⟩

theorem after (c : List Char) (h : Widens k a b) : Widens k (c ++ a) (c ++ b) := by
  simpa using (refl c).append h

theorem before (c : List Char) (h : Widens k a b) : Widens k (a ++ c) (b ++ c) := h.append (refl c)

theorem cons (x : Char) (h : Widens k a b) : Widens k (x :: a) (x :: b) :=
  ⟨h.sublist.cons_cons x, by simp [h.length]; omega⟩

theorem insert (x : Char) (h : Widens k a b) : Widens (1 + k) a (x :: b) :=
  ⟨h.sublist.cons x, by simp [h.length]; omega⟩

theorem dropLast (h : Widens k a b) (ha : a ≠ []) : Widens k a.dropLast b.dropLast := by
  have hlength := h.length
  have hpos := List.length_pos_iff.2 ha
  refine ⟨?_, by simp only [List.length_dropLast]; omega⟩
  rw [← List.reverse_sublist, ← List.tail_reverse, ← List.tail_reverse]
  exact h.sublist.reverse.tail

theorem eq_iff (h : Widens k a b) : b = a ↔ k = 0 := by
  have hlength := h.length
  constructor
  · rintro rfl
    omega
  · rintro rfl
    exact (h.sublist.eq_of_length hlength.symm).symm

end Widens

/-- Nothing is put in where it was read. The least number is read as the negation of itself, and a
sign before the sign of a number as two operators, which are written apart; but two minus signs are
read as one. -/
def Node.Steady : Node → Prop
  | expression (.literal _ (.int v)) => v ≠ Int32.minValue
  | expression (.unary _ op e) => op.isSign → op ≠ .neg → e.isNegative = false
  | _ => True

instance : DecidablePred Node.Steady := fun n => by
  unfold Node.Steady
  split <;> infer_instance

/-- The number of nodes that are not steady. -/
def unsteady (nodes : List Node) : Nat := nodes.countP fun n => ¬n.Steady

@[simp] theorem unsteady_nil : unsteady [] = 0 := rfl

@[simp] theorem unsteady_cons (n : Node) (nodes : List Node) :
    unsteady (n :: nodes) = (if n.Steady then 0 else 1) + unsteady nodes := by
  by_cases h : n.Steady <;> simp [unsteady, h, Nat.add_comm]

@[simp] theorem unsteady_append (a b : List Node) : unsteady (a ++ b) = unsteady a + unsteady b :=
  List.countP_append

theorem unsteady_eq_zero {nodes : List Node} : unsteady nodes = 0 ↔ ∀ n ∈ nodes, n.Steady := by
  simp [unsteady, List.countP_eq_zero]

namespace Expr

theorem reread_text (e : Expr) :
    e.reread.text = (if e.isNegative then ['-'] else []) ++ e.magnitude.text := by
  cases hneg : e.isNegative with
  | false => simp [reread, signed, hneg]
  | true =>
    have hsign := (isSign_of_isNegative hneg).2
    simp [reread, signed, hneg, text, UnaryOp.isPostfix, UnaryOp.text, hsign]

theorem reread_text_suffix {b e : Expr} {suffix : List Char} (hneg : e.isNegative = b.isNegative)
    (htext : e.magnitude.text = b.magnitude.text ++ suffix) :
    e.reread.text = b.reread.text ++ suffix := by
  rw [reread_text, reread_text, hneg, htext, List.append_assoc]

theorem neg_nonneg_of_neg {v : Int32} (hneg : v < 0) (hleast : v ≠ Int32.minValue) : 0 ≤ -v := by
  have hint : (-v).toInt = -v.toInt :=
    BitVec.toInt_neg_of_ne_intMin fun h => hleast (Int32.toBitVec_inj.1 h)
  rw [Int32.lt_iff_toInt_lt, Int32.toInt_zero] at hneg
  rw [Int32.le_iff_toInt_le, Int32.toInt_zero, hint]
  omega

theorem literal_widens (id : NodeId) (v : Literal) :
    Widens (unsteady (literal id v).nodes) (literal id v).text (literal id v).reread.text := by
  cases v with
  | int v =>
    by_cases hneg : v < 0
    · have htext : (literal id (.int v)).text = '-' :: Numeral.decimal (-v).toUInt32.toNat :=
        int_text_of_neg hneg
      have hreread : (literal id (.int v)).reread.text = '-' :: (literal id (.int (-v))).text := by
        simp [reread_text, isNegative, magnitude, Literal.isNegative, Literal.magnitude, hneg]
      rw [htext, hreread]
      by_cases hleast : v = Int32.minValue
      · -- the sign is left on the number, as its own negation is the number itself
        have hself : -v = v := by
          rw [hleast]
          decide
        have hnodes : unsteady (literal id (.int v)).nodes = 1 + 0 := by
          simp [nodes, Node.Steady, hleast]
        rw [hself, htext, hself, hnodes]
        exact (Widens.refl _).insert '-'
      · have hself : (literal id (.int (-v))).text = Numeral.decimal _ :=
          int_text (neg_nonneg_of_neg hneg hleast)
        rw [hself]
        simpa [nodes, Node.Steady, hleast] using Widens.refl _
    · have hleast : v ≠ Int32.minValue := by
        rintro rfl
        exact hneg (by decide)
      simpa [nodes, Node.Steady, hleast, reread, signed, isNegative, magnitude, Literal.isNegative,
        Literal.magnitude, hneg] using Widens.refl _
  | _ => exact Widens.refl _

theorem unary_widens (id : NodeId) (op : UnaryOp) {e : Expr}
    (he : Widens (unsteady e.nodes) e.text e.reread.text) :
    Widens (unsteady (unary id op e).nodes) (unary id op e).text (unary id op e).reread.text := by
  by_cases hpost : op.isPostfix
  · have hsign := UnaryOp.isSign_of_isPostfix hpost
    have htext : (unary id op e).reread.text = e.reread.text ++ op.text :=
      reread_text_suffix (by simp [isNegative, hpost]) (by simp [magnitude, text, hpost])
    rw [htext]
    simpa [nodes, Node.Steady, text, hpost, hsign] using he.before op.text
  · have hself : (unary id op e).isNegative = false := by simp [isNegative, hpost]
    rw [reread_text, hself]
    cases hneg : e.isNegative with
    | false =>
      have hreread : e.reread = e.magnitude := by simp [reread, signed, hneg]
      rw [hreread] at he
      have h := he.after (op.text ++ if op.isSign && e.isSign then [' '] else [])
      simpa [nodes, Node.Steady, text, magnitude, hpost, hneg, signed, isSign_magnitude] using h
    | true =>
      obtain ⟨hsign, hsign'⟩ := isSign_of_isNegative hneg
      by_cases hop : op = .neg
      · -- the two signs are read as one operator, which is written with both
        subst hop
        rw [reread_text, hneg] at he
        simpa [nodes, Node.Steady, text, magnitude, hneg, hsign, hsign', UnaryOp.isPostfix,
          UnaryOp.text] using he.cons '-'
      · have hmagnitude : (unary id op e).magnitude = unary id op e.reread := by
          simp [magnitude, hpost, hop, reread]
        have hapart : e.reread.isSign := by simp [reread, signed, hneg, isSign, UnaryOp.isSign]
        rw [hmagnitude]
        cases hsigns : op.isSign with
        | false =>
          simpa [nodes, Node.Steady, text, hpost, hsigns] using he.after op.text
        | true =>
          have h := (he.insert ' ').after op.text
          simpa [nodes, Node.Steady, text, hpost, hsigns, hop, hneg, hsign, hapart] using h

mutual

theorem text_widens : ∀ e : Expr, Widens (unsteady e.nodes) e.text e.reread.text
  | literal id v => literal_widens id v
  | name _ n => Widens.refl n.toList
  | paren _ e => by
    have h := (e.text_widens.before [')']).cons '('
    simpa [nodes, Node.Steady, text, reread, signed, isNegative, magnitude] using h
  | unary id op e => unary_widens id op e.text_widens
  | binary _ op l r => by
    have h := (l.text_widens.before (' ' :: op.text)).append (r.text_widens.cons ' ')
    simpa [nodes, Node.Steady, text, reread, signed, isNegative, magnitude] using h
  | assign _ op l r => by
    have h := (l.text_widens.before (' ' :: op.text)).append (r.text_widens.cons ' ')
    simpa [nodes, Node.Steady, text, reread, signed, isNegative, magnitude] using h
  | ternary _ c y n => by
    have h := (c.text_widens.before " ? ".toList).append
      ((y.text_widens.before " : ".toList).append n.text_widens)
    simpa [nodes, Node.Steady, text, reread, signed, isNegative, magnitude, Nat.add_assoc] using h
  | call _ f args => by
    have h := (((textOfArgs_widens args).before [')']).cons '(').after f.toList
    simpa [nodes, Node.Steady, text, reread, signed, isNegative, magnitude] using h
  | index id b i => by
    have h := b.text_widens.append ((i.text_widens.before [']']).cons '[')
    have htext : (index id b i).reread.text = b.reread.text ++ ('[' :: i.reread.text ++ [']']) :=
      reread_text_suffix rfl (by simp [magnitude, text, reread])
    rw [htext]
    simpa [nodes, Node.Steady, text] using h
  | member id b f => by
    have h := b.text_widens.before ('.' :: f.toList)
    have htext : (member id b f).reread.text = b.reread.text ++ '.' :: f.toList :=
      reread_text_suffix rfl (by simp [magnitude, text])
    rw [htext]
    simpa [nodes, Node.Steady, text] using h

theorem textOfArgs_widens : ∀ args : List Expr,
    Widens (unsteady (nodesOfArgs args)) (textOfArgs args) (textOfArgs (rereadArgs args))
  | [] => Widens.refl []
  | e :: es => by
    simpa [nodesOfArgs, textOfArgs, rereadArgs, reread] using
      e.text_widens.append (textOfMoreArgs_widens es)

theorem textOfMoreArgs_widens : ∀ args : List Expr,
    Widens (unsteady (nodesOfArgs args)) (textOfMoreArgs args) (textOfMoreArgs (rereadArgs args))
  | [] => Widens.refl []
  | e :: es => by
    simpa [nodesOfArgs, textOfMoreArgs, rereadArgs, reread] using
      (e.text_widens.after ", ".toList).append (textOfMoreArgs_widens es)

end

end Expr

theorem textOrEmpty_widens {f : Expr → List Char} {e : Option Expr}
    (h : ∀ v : Expr, Widens (unsteady v.nodes) (f v) (f v.reread)) :
    Widens (unsteady (nodesOfOption e)) (textOrEmpty f e) (textOrEmpty f (e.map Expr.reread)) := by
  cases e with
  | none => exact Widens.refl []
  | some v => exact h v

theorem suffix_widens (a : Option ArraySuffix) :
    Widens (unsteady (nodesOfSuffix a)) (textOrEmpty ArraySuffix.text a)
      (textOrEmpty ArraySuffix.text (a.map ArraySuffix.reread)) := by
  rcases a with _ | ⟨_ | e⟩
  · exact Widens.refl []
  · exact Widens.refl ['[', ']']
  · exact (e.text_widens.before [']']).cons '['

theorem flatMap_widens {α β : Type} {f : α → β} {nodes : α → List Node} {text : α → List Char}
    {text' : β → List Char} {xs : List α}
    (h : ∀ x ∈ xs, Widens (unsteady (nodes x)) (text x) (text' (f x))) :
    Widens (unsteady (xs.flatMap nodes)) (xs.flatMap text) ((xs.map f).flatMap text') := by
  induction xs with
  | nil => exact Widens.refl []
  | cons x xs ih =>
    obtain ⟨hx, hxs⟩ := List.forall_mem_cons.1 h
    simpa using hx.append (ih hxs)

theorem joinTexts_widens {α : Type} {f : α → α} {nodes : α → List Node} {text : α → List Char}
    {xs : List α} (separator : List Char)
    (h : ∀ x ∈ xs, Widens (unsteady (nodes x)) (text x) (text (f x))) :
    Widens (unsteady (xs.flatMap nodes)) (joinTexts separator (xs.map text))
      (joinTexts separator ((xs.map f).map text)) := by
  induction xs with
  | nil => exact Widens.refl []
  | cons x xs ih =>
    obtain ⟨hx, hxs⟩ := List.forall_mem_cons.1 h
    cases xs with
    | nil => simpa [joinTexts] using hx
    | cons y ys => simpa [joinTexts] using hx.append ((ih hxs).after separator)

theorem Variables.text_widens (v : Variables) : Widens (unsteady v.nodes) v.text v.reread.text := by
  have hvar (d : Declarator) : Widens (unsteady d.nodes) d.text d.reread.text := by
    have hinit : Widens (unsteady (nodesOfOption d.init)) _ _ :=
      textOrEmpty_widens fun e => e.text_widens.after " = ".toList
    have h := ((suffix_widens d.array).after d.name.toList).append hinit
    simpa [Declarator.nodes, Declarator.text, Declarator.reread] using h
  have hvars := joinTexts_widens ", ".toList fun d (_ : d ∈ v.vars) => hvar d
  have h := ((hvars.before [';']).cons ' ').after v.type.text
  simpa [nodes, text, reread] using h

namespace Stmt

theorem text_ne_nil (place : Place) (depth : Nat) (s : Stmt) : s.text place depth ≠ [] := by
  cases s <;> simp [text]

mutual

theorem text_widens (place : Place) (depth : Nat) :
    ∀ s : Stmt, Widens (unsteady s.nodes) (s.text place depth) (s.reread.text place depth)
  | block id body => by
    have hbody := textOfBody_widens ((block id body).depthAt place depth + 1) body
    have hclosed := hbody.before (indent ((block id body).depthAt place depth) ++ ['\x7d', '\n'])
    have h := hclosed.after ((block id body).lead place depth ++ ['\x7b', '\n'])
    simpa [nodes, Node.Steady, text, reread, lead, depthAt, isBlock, isIf] using h
  | declare id vars => by
    have h := (vars.text_widens.before ['\n']).after ((declare id vars).lead place depth)
    simpa [nodes, Node.Steady, text, reread, lead, isBlock, isIf] using h
  | expr id e => by
    have h := (e.text_widens.before ";\n".toList).after ((expr id e).lead place depth)
    simpa [nodes, Node.Steady, text, reread, lead, isBlock, isIf] using h
  | ifThen id c y => by
    have hy := y.text_widens .branch ((ifThen id c y).depthAt place depth)
    have h := (c.text_widens.append (hy.cons ')')).after
      ((ifThen id c y).lead place depth ++ "if (".toList)
    simpa [nodes, Node.Steady, text, reread, lead, depthAt, isBlock, isIf] using h
  | ifElse id c y n => by
    have hy := y.text_widens .branch ((ifElse id c y n).depthAt place depth)
    have hn := n.text_widens .otherwise ((ifElse id c y n).depthAt place depth)
    have helse := hn.after (indent ((ifElse id c y n).depthAt place depth) ++ "else".toList)
    have h := (c.text_widens.append ((hy.append helse).cons ')')).after
      ((ifElse id c y n).lead place depth ++ "if (".toList)
    simpa [nodes, Node.Steady, text, reread, lead, depthAt, isBlock, isIf, Nat.add_assoc] using h
  | forLoop id init c s body => by
    have hinit := (init.text_widens .line 0).dropLast (init.text_ne_nil .line 0)
    have hc : Widens (unsteady (nodesOfOption c)) _ _ := textOrEmpty_widens Expr.text_widens
    have hs : Widens (unsteady (nodesOfOption s)) _ _ := textOrEmpty_widens Expr.text_widens
    have hbody := body.text_widens .branch ((forLoop id init c s body).depthAt place depth)
    have hstep := (hs.append (hbody.cons ')')).after "; ".toList
    have h := (hinit.append ((hc.append hstep).cons ' ')).after
      ((forLoop id init c s body).lead place depth ++ "for (".toList)
    simpa [nodes, Node.Steady, text, reread, lead, depthAt, isBlock, isIf, Nat.add_assoc] using h
  | whileLoop id c body => by
    have hbody := body.text_widens .branch ((whileLoop id c body).depthAt place depth)
    have h := (c.text_widens.append (hbody.cons ')')).after
      ((whileLoop id c body).lead place depth ++ "while (".toList)
    simpa [nodes, Node.Steady, text, reread, lead, depthAt, isBlock, isIf] using h
  | doWhile id body c => by
    have hbody := body.text_widens .branch ((doWhile id body c).depthAt place depth)
    have hc := (c.text_widens.before ");\n".toList).after
      (indent ((doWhile id body c).depthAt place depth) ++ "while (".toList)
    have h := (hbody.append hc).after ((doWhile id body c).lead place depth ++ "do".toList)
    simpa [nodes, Node.Steady, text, reread, lead, depthAt, isBlock, isIf] using h
  | ret id e => by
    have he : Widens (unsteady (nodesOfOption e)) _ _ :=
      textOrEmpty_widens fun e => e.text_widens.cons ' '
    have h := (he.before ";\n".toList).after ((ret id e).lead place depth ++ "return".toList)
    simpa [nodes, Node.Steady, text, reread, lead, isBlock, isIf] using h
  | jump id k => Widens.refl _
  | empty id => Widens.refl _

theorem textOfBody_widens (depth : Nat) : ∀ body : List Stmt,
    Widens (unsteady (nodesOfBody body)) (textOfBody depth body)
      (textOfBody depth (rereadBody body))
  | [] => Widens.refl []
  | s :: rest => by
    have h := ((s.text_widens .line depth).append (textOfBody_widens depth rest)).after
      (indent depth)
    simpa [nodesOfBody, textOfBody, rereadBody] using h

end

end Stmt

theorem BlockMember.text_widens (m : BlockMember) :
    Widens (unsteady (nodesOfSuffix m.array)) m.text m.reread.text := by
  have h := ((suffix_widens m.array).before ";\n".toList).after
    (indent 1 ++ m.type.text ++ ' ' :: m.name.toList)
  simpa [text, reread] using h

theorem Param.text_widens (p : Param) :
    Widens (unsteady (nodesOfSuffix p.written.array)) p.text p.reread.text := by
  obtain ⟨type, name, array⟩ := p
  cases name with
  | none => exact Widens.refl type.text
  | some name => exact (suffix_widens array).after (type.text ++ ' ' :: name.toList)

theorem Function.text_widens (id : NodeId) (f : Function) :
    Widens (unsteady (Declaration.function id f.written).nodes) f.text f.reread.text := by
  have hparams := joinTexts_widens ", ".toList fun p (_ : p ∈ f.params) => p.text_widens
  have hlist := (hparams.cons '(').after (f.returns.text ++ ' ' :: f.name.toList)
  cases hbody : f.body with
  | none =>
    have h := hlist.before (')' :: ";\n".toList)
    simpa [Declaration.nodes, Node.Steady, written, text, reread, hbody, Stmt.nodesOfBody,
      List.flatMap_map] using h
  | some body =>
    have hlines := (Stmt.textOfBody_widens 1 body).before "\x7d\n".toList
    have h := hlist.append (hlines.after (')' :: " \x7b\n".toList))
    simpa [Declaration.nodes, Node.Steady, written, text, reread, hbody, List.flatMap_map] using h

theorem Declaration.text_widens (d : Declaration) :
    Widens (unsteady d.written.nodes) d.text d.reread.text := by
  cases d with
  | directive _ _ | precision _ _ _ | qualifiers _ _ => exact Widens.refl _
  | globals id vars =>
    have hnodes : unsteady (globals id vars).written.nodes = unsteady vars.nodes := by
      simp [written, nodes, Node.Steady]
    rw [hnodes]
    exact vars.text_widens.before ['\n']
  | interfaceBlock id b =>
    have hmembers := flatMap_widens fun m (_ : m ∈ b.members) => m.text_widens
    have h := (hmembers.before ('\x7d' ::
      textOrEmpty (fun (n : String) => ' ' :: n.toList) b.instanceName ++ ";\n".toList)).after
        (b.qualifiers.flatMap (fun q => q.text ++ [' ']) ++ b.name.toList ++ " \x7b\n".toList)
    have htext (i : NodeId) (c : InterfaceBlock) : (interfaceBlock i c).text = c.text := rfl
    rw [reread, htext, htext]
    simpa [nodes, Node.Steady, written, InterfaceBlock.text] using h
  | function id f => exact f.text_widens id

/-- The text of what is read has one more character for each unsteady node that is written. -/
theorem Shader.text_widens (s : Shader) :
    Widens (unsteady s.written.nodes) s.text s.reread.text := by
  have h := flatMap_widens fun d (_ : d ∈ s.declarations) => d.text_widens
  simpa [text, reread, written, nodes, List.flatMap_map] using h

theorem Shader.text_reread_iff (s : Shader) :
    s.reread.text = s.text ↔ ∀ n ∈ s.written.nodes, n.Steady :=
  s.text_widens.eq_iff.trans unsteady_eq_zero

end ShaderLift
