import Mathlib
import ShaderLift.Json.Writer
import ShaderLift.Proofs.NumeralText
import ShaderLift.Proofs.Spelling
import ShaderLift.Tree.Text

/-!
Where zero characters can be in what is written. There are none in the text of a JSON value, where
they are escaped, and none in the text of a tree, but for directives, which are written as they were
read.
-/

namespace ShaderLift

def ZeroFree (cs : List Char) : Prop := '\x00' ∉ cs

namespace ZeroFree

instance (cs : List Char) : Decidable (ZeroFree cs) := inferInstanceAs (Decidable (_ ∉ _))

variable {c : Char} {a b : List Char}

@[simp] theorem nil_iff : ZeroFree [] ↔ True := by simp [ZeroFree]

@[simp] theorem cons_iff : ZeroFree (c :: a) ↔ c ≠ '\x00' ∧ ZeroFree a := by
  simp [ZeroFree, eq_comm]

@[simp] theorem append_iff : ZeroFree (a ++ b) ↔ ZeroFree a ∧ ZeroFree b := by simp [ZeroFree]

@[simp] theorem flatMap_iff {α : Type} {f : α → List Char} {xs : List α} :
    ZeroFree (xs.flatMap f) ↔ ∀ x ∈ xs, ZeroFree (f x) := by simp [ZeroFree]

@[simp] theorem replicate (n : Nat) (hc : c ≠ '\x00') : ZeroFree (List.replicate n c) := by
  simp [ZeroFree, hc.symm]

theorem subset (h : ZeroFree a) (hsub : b ⊆ a) : ZeroFree b := fun hzero => h (hsub hzero)

theorem of_all {p : Char → Bool} (hp : p '\x00' = false) (h : ∀ c ∈ a, p c) : ZeroFree a := by
  intro hzero
  rw [h _ hzero] at hp
  cases hp

theorem join {separator : List Char} {texts : List (List Char)} (hseparator : ZeroFree separator)
    (h : ∀ t ∈ texts, ZeroFree t) : ZeroFree (joinTexts separator texts) := by
  induction texts with
  | nil => simp [joinTexts]
  | cons t texts ih =>
    obtain ⟨ht, htexts⟩ := List.forall_mem_cons.1 h
    cases texts with
    | nil => exact ht
    | cons u more => simp [joinTexts, ht, hseparator, ih htexts]

theorem orEmpty {α : Type} {text : α → List Char} {x : Option α}
    (h : ∀ a ∈ x, ZeroFree (text a)) : ZeroFree (textOrEmpty text x) := by
  cases x with
  | none => simp [textOrEmpty]
  | some a => exact h a rfl

end ZeroFree

namespace Numeral

theorem decimal_zeroFree (n : Nat) : ZeroFree (decimal n) :=
  .of_all (by decide) fun _ hc => decimal_isDigit hc

theorem integer_zeroFree (i : Int) : ZeroFree (integer i) := by
  cases i with
  | ofNat n => exact decimal_zeroFree n
  | negSucc n => simp [integer, decimal_zeroFree]

theorem positional_zeroFree {digits : List Char} (h : ZeroFree digits) (exponent : Int) :
    ZeroFree (positional digits exponent) := by
  have htake := h.subset (List.take_subset (digits.length - (-exponent).toNat) digits)
  have hdrop := h.subset (List.drop_subset (digits.length - (-exponent).toNat) digits)
  simp only [positional]
  split_ifs
  · simp [h]
  · simp [htake, hdrop]
  · simp [h]

theorem scientific_zeroFree (plus : Bool) {digits : List Char} (h : ZeroFree digits)
    (exponent : Int) : ZeroFree (scientific plus digits exponent) := by
  have hmark : ZeroFree (if plus && 0 ≤ exponent then ['e', '+'] else ['e']) := by
    split <;> decide
  cases digits with
  | nil => simp [scientific]
  | cons c rest => cases rest <;> simp_all [scientific, integer_zeroFree]

theorem Layout.write_zeroFree (layout : Layout) (d : Decimal) : ZeroFree (layout.write d) := by
  simp only [Layout.write]
  split
  · exact positional_zeroFree (decimal_zeroFree _) _
  · exact scientific_zeroFree _ (decimal_zeroFree _) _

end Numeral

open Numeral

theorem Single.text_zeroFree (x : Single) : ZeroFree x.text := by
  have hsign : ZeroFree (if x.negative then ['-'] else []) := by split <;> decide
  unfold Single.text
  split_ifs <;> simp_all [Layout.write_zeroFree]

theorem Double.text_zeroFree (x : Double) : ZeroFree x.text := by
  have hsign : ZeroFree (if x.negative then ['-'] else []) := by split <;> decide
  simp [Double.text, hsign, Layout.write_zeroFree]

theorem Number.text_zeroFree (n : Number) : ZeroFree n.text := by
  cases n with
  | whole i => exact integer_zeroFree i
  | real x => exact x.text_zeroFree

namespace Json

theorem escapeChar_zeroFree (c : Char) : ZeroFree (escapeChar c) := by
  have hdigits : ∀ n < 32, ZeroFree (hexadecimal n) := by decide
  unfold escapeChar
  split_ifs with _ _ _ _ _ _ _ hlow hcontrol
  any_goals decide
  · simp [hdigits c.toNat (by omega)]
  · simp [hdigits c.toNat hcontrol]
  · have hc : c ≠ '\x00' := by
      rintro rfl
      exact hcontrol (by decide)
    simp [hc]

theorem stringText_zeroFree (s : String) : ZeroFree (stringText s) := by
  simp [stringText, escapeChar_zeroFree]

mutual

theorem compact_zeroFree : ∀ v : Json, ZeroFree v.compact
  | null => by decide
  | bool b => by cases b <;> decide
  | number n => n.text_zeroFree
  | string s => stringText_zeroFree s
  | array items => by simp [compact, compactItems_zeroFree items]
  | object fields => by simp [compact, compactFields_zeroFree fields]

theorem compactItems_zeroFree : ∀ items : List Json, ZeroFree (compactItems items)
  | [] => by simp [compactItems]
  | v :: rest => by simp [compactItems, v.compact_zeroFree, compactMoreItems_zeroFree rest]

theorem compactMoreItems_zeroFree : ∀ items : List Json, ZeroFree (compactMoreItems items)
  | [] => by simp [compactMoreItems]
  | v :: rest => by simp [compactMoreItems, v.compact_zeroFree, compactMoreItems_zeroFree rest]

theorem compactFields_zeroFree : ∀ fields : List (String × Json), ZeroFree (compactFields fields)
  | [] => by simp [compactFields]
  | (name, v) :: rest => by
    simp [compactFields, stringText_zeroFree, v.compact_zeroFree, compactMoreFields_zeroFree rest]

theorem compactMoreFields_zeroFree : ∀ fields : List (String × Json),
    ZeroFree (compactMoreFields fields)
  | [] => by simp [compactMoreFields]
  | (name, v) :: rest => by
    simp [compactMoreFields, stringText_zeroFree, v.compact_zeroFree,
      compactMoreFields_zeroFree rest]

end

end Json

theorem ProperName.zeroFree {name : String} (h : ProperName name) : ZeroFree name.toList :=
  .of_all (by decide) (List.all_eq_true.1 h.2.1)

theorem Literal.text_zeroFree (v : Literal) : ZeroFree v.text := by
  cases v with
  | int v => exact integer_zeroFree _
  | uint v => simp [Literal.text, decimal_zeroFree]
  | float v => exact v.text_zeroFree
  | bool b => cases b <;> decide

theorem UnaryOp.text_zeroFree (op : UnaryOp) : ZeroFree op.text := by cases op <;> decide

theorem BinaryOp.text_zeroFree (op : BinaryOp) : ZeroFree op.text := by cases op <;> decide

theorem AssignOp.text_zeroFree (op : AssignOp) : ZeroFree op.text := by cases op <;> decide

namespace Expr

mutual

theorem text_zeroFree : ∀ e : Expr, e.WellFormed → ZeroFree e.text
  | literal _ v, _ => v.text_zeroFree
  | name _ _, h => ProperName.zeroFree h
  | paren _ e, h => by simp [text, e.text_zeroFree h]
  | unary _ op e, h => by
    have hspace : ZeroFree (if op.isSign && e.isSign then [' '] else []) := by split <;> decide
    simp only [text]
    split
    · simp [op.text_zeroFree, e.text_zeroFree h.1]
    · simp only [ZeroFree.append_iff]
      exact ⟨⟨op.text_zeroFree, hspace⟩, e.text_zeroFree h.1⟩
  | binary _ op l r, h => by
    simp [text, op.text_zeroFree, l.text_zeroFree h.1, r.text_zeroFree h.2.1]
  | assign _ op l r, h => by
    simp [text, op.text_zeroFree, l.text_zeroFree h.1, r.text_zeroFree h.2.1]
  | ternary _ c y n, h => by
    simp [text, c.text_zeroFree h.1, y.text_zeroFree h.2.1, n.text_zeroFree h.2.2.1]
  | call _ f args, h => by simp [text, h.1.zeroFree, textOfArgs_zeroFree args h.2]
  | index _ b i, h => by simp [text, b.text_zeroFree h.1, i.text_zeroFree h.2.1]
  | member _ b f, h => by simp [text, b.text_zeroFree h.1, h.2.1.zeroFree]

theorem textOfArgs_zeroFree : ∀ args : List Expr, WellFormedArgs args → ZeroFree (textOfArgs args)
  | [], _ => by simp [textOfArgs]
  | e :: es, h => by simp [textOfArgs, e.text_zeroFree h.1, textOfMoreArgs_zeroFree es h.2]

theorem textOfMoreArgs_zeroFree : ∀ args : List Expr, WellFormedArgs args →
    ZeroFree (textOfMoreArgs args)
  | [], _ => by simp [textOfMoreArgs]
  | e :: es, h => by simp [textOfMoreArgs, e.text_zeroFree h.1, textOfMoreArgs_zeroFree es h.2]

end

end Expr

theorem DataType.text_zeroFree (t : DataType) : ZeroFree t.text := by
  cases t with
  | vec n | ivec n | uvec n | bvec n => cases n <;> decide
  | mat c r => cases c <;> cases r <;> decide
  | _ => decide

theorem Precision.text_zeroFree (p : Precision) : ZeroFree p.text := by cases p <;> decide

theorem LayoutItem.text_zeroFree {item : LayoutItem} (h : item.WellFormed) :
    ZeroFree item.text := by
  unfold LayoutItem.text
  split
  · simp [h.1.zeroFree, decimal_zeroFree]
  · exact h.1.zeroFree

theorem Qualifier.text_zeroFree {q : Qualifier} (h : q.WellFormed) : ZeroFree q.text := by
  cases q with
  | precision p => exact p.text_zeroFree
  | layout items =>
    have hitems : ZeroFree (joinTexts ", ".toList (items.map LayoutItem.text)) :=
      .join (by decide) (List.forall_mem_map.2 fun item hitem =>
        LayoutItem.text_zeroFree (h.2 item hitem))
    have htext : (layout items).text =
      "layout(".toList ++ joinTexts ", ".toList (items.map LayoutItem.text) ++ [')'] := rfl
    rw [htext, ZeroFree.append_iff, ZeroFree.append_iff]
    exact ⟨⟨by decide, hitems⟩, by decide⟩
  | _ => decide

theorem qualifiers_zeroFree {qs : List Qualifier} (h : ∀ q ∈ qs, q.WellFormed) :
    ZeroFree (qs.flatMap fun q => q.text ++ [' ']) := by
  rw [ZeroFree.flatMap_iff]
  exact fun q hq => by simp [Qualifier.text_zeroFree (h q hq)]

theorem QualifiedType.text_zeroFree {t : QualifiedType} (h : t.WellFormed) : ZeroFree t.text := by
  rw [QualifiedType.text, ZeroFree.append_iff]
  exact ⟨qualifiers_zeroFree h, t.base.text_zeroFree⟩

theorem ArraySuffix.text_zeroFree {a : ArraySuffix} (h : a.WellFormed) : ZeroFree a.text := by
  unfold ArraySuffix.text
  split
  · next e he => simp [e.text_zeroFree (h e he)]
  · decide

theorem suffix_zeroFree {a : Option ArraySuffix} (h : ∀ x ∈ a, x.WellFormed) :
    ZeroFree (textOrEmpty ArraySuffix.text a) :=
  .orEmpty fun x hx => ArraySuffix.text_zeroFree (h x hx)

theorem Declarator.text_zeroFree {d : Declarator} (h : d.WellFormed) : ZeroFree d.text := by
  have hinit : ZeroFree (textOrEmpty (fun e => " = ".toList ++ e.text) d.init) :=
    .orEmpty fun e he => by simp [e.text_zeroFree (h.2.2 e he)]
  rw [Declarator.text, ZeroFree.append_iff, ZeroFree.append_iff]
  exact ⟨⟨h.1.zeroFree, suffix_zeroFree h.2.1⟩, hinit⟩

theorem Variables.text_zeroFree {v : Variables} (h : v.WellFormed) : ZeroFree v.text := by
  have hvars : ZeroFree (joinTexts ", ".toList (v.vars.map Declarator.text)) :=
    .join (by decide) (List.forall_mem_map.2 fun d hd => Declarator.text_zeroFree (h.2.2 d hd))
  simp only [Variables.text, ZeroFree.append_iff, ZeroFree.cons_iff]
  exact ⟨⟨QualifiedType.text_zeroFree h.1, by decide, hvars⟩, by decide⟩

theorem Jump.text_zeroFree (k : Jump) : ZeroFree k.text := by cases k <;> decide

namespace Stmt

theorem indent_zeroFree (depth : Nat) : ZeroFree (indent depth) := by simp [indent]

theorem lead_zeroFree (place : Place) (depth : Nat) (s : Stmt) : ZeroFree (s.lead place depth) := by
  unfold lead
  split
  · simp
  all_goals split <;> simp [indent_zeroFree]

theorem condition_zeroFree {e : Option Expr} (h : ∀ v ∈ e, v.WellFormed) :
    ZeroFree (textOrEmpty Expr.text e) :=
  .orEmpty fun v hv => v.text_zeroFree (h v hv)

mutual

theorem text_zeroFree (place : Place) (depth : Nat) : ∀ s : Stmt, s.WellFormed →
    ZeroFree (s.text place depth)
  | block _ body, h => by
    simp [text, lead_zeroFree, indent_zeroFree, textOfBody_zeroFree _ body h]
  | ifThen _ c y, h => by
    simp [text, lead_zeroFree, c.text_zeroFree h.1, y.text_zeroFree _ _ h.2]
  | ifElse _ c y n, h => by
    simp [text, lead_zeroFree, indent_zeroFree, c.text_zeroFree h.1, y.text_zeroFree _ _ h.2.1,
      n.text_zeroFree _ _ h.2.2.1]
  | forLoop _ init c step body, h => by
    have hinit := (init.text_zeroFree .line 0 h.1).subset (List.dropLast_subset _)
    simp [text, lead_zeroFree, hinit, condition_zeroFree h.2.2.1, condition_zeroFree h.2.2.2.1,
      body.text_zeroFree _ _ h.2.2.2.2]
  | whileLoop _ c body, h => by
    simp [text, lead_zeroFree, c.text_zeroFree h.1, body.text_zeroFree _ _ h.2]
  | doWhile _ body c, h => by
    simp [text, lead_zeroFree, indent_zeroFree, body.text_zeroFree _ _ h.1, c.text_zeroFree h.2]
  | declare _ vars, h => by
    simp [text, lead_zeroFree, Variables.text_zeroFree h]
  | expr _ e, h => by simp [text, lead_zeroFree, e.text_zeroFree h]
  | ret _ e, h => by
    have he : ZeroFree (textOrEmpty (fun e => ' ' :: e.text) e) :=
      .orEmpty fun v hv => by simp [v.text_zeroFree (h v hv)]
    simp [text, lead_zeroFree, he]
  | jump _ k, _ => by simp [text, lead_zeroFree, k.text_zeroFree]
  | empty _, _ => by simp [text, lead_zeroFree]

theorem textOfBody_zeroFree (depth : Nat) : ∀ body : List Stmt, WellFormedBody body →
    ZeroFree (textOfBody depth body)
  | [], _ => by simp [textOfBody]
  | s :: rest, h => by
    simp [textOfBody, indent_zeroFree, s.text_zeroFree _ _ h.1, textOfBody_zeroFree _ rest h.2]

end

end Stmt

theorem BlockMember.text_zeroFree {m : BlockMember} (h : m.WellFormed) : ZeroFree m.text := by
  simp [BlockMember.text, Stmt.indent_zeroFree, QualifiedType.text_zeroFree h.1, h.2.1.zeroFree,
    suffix_zeroFree h.2.2]

theorem InterfaceBlock.text_zeroFree {b : InterfaceBlock} (h : b.WellFormed) : ZeroFree b.text := by
  obtain ⟨-, hqualifiers, hname, hmembers, hinstance⟩ := h
  have hlast : ZeroFree (textOrEmpty (fun n : String => ' ' :: n.toList) b.instanceName) :=
    .orEmpty fun n hn => by simp [(hinstance n hn).zeroFree]
  have hinside : ZeroFree (b.members.flatMap BlockMember.text) :=
    ZeroFree.flatMap_iff.2 fun m hm => BlockMember.text_zeroFree (hmembers m hm)
  simp only [InterfaceBlock.text, ZeroFree.append_iff, ZeroFree.cons_iff]
  exact ⟨⟨⟨⟨⟨qualifiers_zeroFree hqualifiers, hname.zeroFree⟩, by decide⟩, hinside⟩, by decide,
    hlast⟩, by decide⟩

theorem Param.text_zeroFree {p : Param} (h : p.WellFormed) : ZeroFree p.text := by
  unfold Param.text
  split
  · next name hname =>
    simp [QualifiedType.text_zeroFree h.1, (h.2.1 name hname).zeroFree, suffix_zeroFree h.2.2]
  · exact QualifiedType.text_zeroFree h.1

theorem Function.text_zeroFree {f : Function} (h : f.WellFormed) : ZeroFree f.text := by
  obtain ⟨hreturns, hname, hparams, -, hbody⟩ := h
  have hlist : ZeroFree (joinTexts ", ".toList (f.params.map Param.text)) :=
    .join (by decide) (List.forall_mem_map.2 fun p hp => Param.text_zeroFree (hparams p hp))
  simp only [Function.text, ZeroFree.append_iff, ZeroFree.cons_iff]
  refine ⟨⟨⟨QualifiedType.text_zeroFree hreturns, by decide, hname.zeroFree⟩, by decide, hlist⟩,
    by decide, ?_⟩
  split
  · next body hb => simp [Stmt.textOfBody_zeroFree 1 body (hbody body hb)]
  · decide

end ShaderLift
