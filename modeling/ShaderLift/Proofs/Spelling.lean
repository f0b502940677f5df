import Mathlib
import ShaderLift.Proofs.Numbering
import ShaderLift.Grammar.Shader

/-!
The tokens that a tree is spelled with, and the trees that the grammar allows: operands bind
tightly enough to need no brackets, names and numbers are ones that a source can hold, and an
`else` belongs to the nearest `if`.
-/

namespace ShaderLift

def UnaryOp.symbol : UnaryOp → Symbol
  | neg => .minus
  | plus => .plus
  | not => .bang
  | bitNot => .tilde
  | preInc => .inc
  | preDec => .dec
  | postInc => .inc
  | postDec => .dec

def BinaryOp.symbol : BinaryOp → Symbol
  | mul => .star
  | div => .slash
  | rem => .percent
  | add => .plus
  | sub => .minus
  | shl => .shl
  | shr => .shr
  | lt => .lt
  | gt => .gt
  | le => .le
  | ge => .ge
  | eq => .eqEq
  | ne => .notEq
  | bitAnd => .amp
  | bitXor => .caret
  | bitOr => .pipe
  | logicalAnd => .andAnd
  | logicalXor => .xorXor
  | logicalOr => .orOr

def AssignOp.symbol : AssignOp → Symbol
  | assign => .assign
  | add => .addAssign
  | sub => .subAssign
  | mul => .mulAssign
  | div => .divAssign
  | rem => .remAssign

def Literal.token : Literal → Token
  | int v => .int v
  | uint v => .uint v
  | float v => .float v
  | bool v => .bool v

mutual

def Expr.tokens : Expr → List Token
  | literal _ v => [v.token]
  | name _ n => [.ident n]
  | paren _ e => .symbol .lparen :: (e.tokens ++ [.symbol .rparen])
  | unary _ op e =>
    if op.isPostfix then e.tokens ++ [.symbol op.symbol] else .symbol op.symbol :: e.tokens
  | binary _ op l r => l.tokens ++ .symbol op.symbol :: r.tokens
  | assign _ op l r => l.tokens ++ .symbol op.symbol :: r.tokens
  | ternary _ c y n =>
    c.tokens ++ .symbol .question :: (y.tokens ++ .symbol .colon :: n.tokens)
  | call _ f args => .ident f :: .symbol .lparen :: (tokensOfArgs args ++ [.symbol .rparen])
  | index _ b i => b.tokens ++ .symbol .lbracket :: (i.tokens ++ [.symbol .rbracket])
  | member _ b f => b.tokens ++ [.symbol .dot, .ident f]

def Expr.tokensOfArgs : List Expr → List Token
  | [] => []
  | e :: es => e.tokens ++ tokensOfMoreArgs es

def Expr.tokensOfMoreArgs : List Expr → List Token
  | [] => []
  | e :: es => .symbol .comma :: (e.tokens ++ tokensOfMoreArgs es)

end

def commaTokens : List (List Token) → List Token
  | [] => []
  | item :: items => item ++ items.flatMap (.symbol .comma :: ·)

theorem Expr.tokensOfMoreArgs_eq (args : List Expr) :
    tokensOfMoreArgs args = (args.map tokens).flatMap (.symbol .comma :: ·) := by
  induction args with
  | nil => rfl
  | cons e es ih => simp [tokensOfMoreArgs, ih]

theorem Expr.tokensOfArgs_eq (args : List Expr) :
    tokensOfArgs args = commaTokens (args.map tokens) := by
  cases args with
  | nil => rfl
  | cons e es => simp [tokensOfArgs, tokensOfMoreArgs_eq, commaTokens]

def tokensOrNone {α : Type} (tokens : α → List Token) : Option α → List Token
  | some a => tokens a
  | none => []

def DataType.token (t : DataType) : Token := .ident (String.ofList t.text)

def Precision.keyword : Precision → Keyword
  | high => .highp
  | medium => .mediump
  | low => .lowp

def LayoutItem.tokens (item : LayoutItem) : List Token :=
  .ident item.name :: tokensOrNone (fun v => [.symbol .assign, .int v.toInt32]) item.value

def Qualifier.tokens : Qualifier → List Token
  | const => [.keyword .const]
  | uniform => [.keyword .uniform]
  | input => [.keyword .in_]
  | output => [.keyword .out]
  | inout => [.keyword .inout]
  | flat => [.keyword .flat]
  | buffer => [.keyword .buffer]
  | precision p => [.keyword p.keyword]
  | layout items =>
    .keyword .layout :: .symbol .lparen ::
      (commaTokens (items.map LayoutItem.tokens) ++ [.symbol .rparen])

def QualifiedType.tokens (t : QualifiedType) : List Token :=
  t.qualifiers.flatMap Qualifier.tokens ++ [t.base.token]

def ArraySuffix.tokens (a : ArraySuffix) : List Token :=
  .symbol .lbracket :: (tokensOrNone Expr.tokens a.size ++ [.symbol .rbracket])

def Declarator.tokens (d : Declarator) : List Token :=
  .ident d.name :: (tokensOrNone ArraySuffix.tokens d.array ++
    tokensOrNone (fun e => .symbol .assign :: e.tokens) d.init)

def Variables.tokens (v : Variables) : List Token :=
  v.type.tokens ++ (commaTokens (v.vars.map Declarator.tokens) ++ [.symbol .semi])

def Jump.keyword : Jump → Keyword
  | breakLoop => .break_
  | continueLoop => .continue_
  | discard => .discard

mutual

def Stmt.tokens : Stmt → List Token
  | block _ body => .symbol .lbrace :: (tokensOfBody body ++ [.symbol .rbrace])
  | declare _ vars => vars.tokens
  | expr _ e => e.tokens ++ [.symbol .semi]
  | ifThen _ c y =>
    .keyword .if_ :: .symbol .lparen :: (c.tokens ++ .symbol .rparen :: y.tokens)
  | ifElse _ c y n =>
    .keyword .if_ :: .symbol .lparen ::
      (c.tokens ++ .symbol .rparen :: (y.tokens ++ .keyword .else_ :: n.tokens))
  | forLoop _ init c step body =>
    .keyword .for_ :: .symbol .lparen ::
      (init.tokens ++ (tokensOrNone Expr.tokens c ++ .symbol .semi ::
        (tokensOrNone Expr.tokens step ++ .symbol .rparen :: body.tokens)))
  | whileLoop _ c body =>
    .keyword .while_ :: .symbol .lparen :: (c.tokens ++ .symbol .rparen :: body.tokens)
  | doWhile _ body c =>
    .keyword .do_ :: (body.tokens ++ .keyword .while_ :: .symbol .lparen ::
      (c.tokens ++ [.symbol .rparen, .symbol .semi]))
  | ret _ e => .keyword .return_ :: (tokensOrNone Expr.tokens e ++ [.symbol .semi])
  | jump _ k => [.keyword k.keyword, .symbol .semi]
  | empty _ => [.symbol .semi]

def Stmt.tokensOfBody : List Stmt → List Token
  | [] => []
  | s :: rest => s.tokens ++ tokensOfBody rest

end

def Param.tokens (p : Param) : List Token :=
  p.type.tokens ++ (tokensOrNone (fun n => [.ident n]) p.name ++
    tokensOrNone ArraySuffix.tokens p.array)

def Function.bodyTokens : Option (List Stmt) → List Token
  | some body => .symbol .lbrace :: (Stmt.tokensOfBody body ++ [.symbol .rbrace])
  | none => [.symbol .semi]

def Function.tokens (f : Function) : List Token :=
  f.returns.tokens ++ .ident f.name :: .symbol .lparen ::
    (commaTokens (f.params.map Param.tokens) ++ .symbol .rparen :: bodyTokens f.body)

def BlockMember.tokens (m : BlockMember) : List Token :=
  m.type.tokens ++ .ident m.name :: (tokensOrNone ArraySuffix.tokens m.array ++ [.symbol .semi])

def InterfaceBlock.tokens (b : InterfaceBlock) : List Token :=
  b.qualifiers.flatMap Qualifier.tokens ++ .ident b.name :: .symbol .lbrace ::
    (b.members.flatMap BlockMember.tokens ++ .symbol .rbrace ::
      (tokensOrNone (fun n => [.ident n]) b.instanceName ++ [.symbol .semi]))

def Declaration.tokens : Declaration → List Token
  | directive _ text => [.directive text]
  | precision _ p t => [.keyword .precision, .keyword p.keyword, t.token, .symbol .semi]
  | globals _ vars => vars.tokens
  | interfaceBlock _ b => b.tokens
  | qualifiers _ list => list.flatMap Qualifier.tokens ++ [.symbol .semi]
  | function _ f => f.tokens

def Shader.tokens (s : Shader) : List Token := s.declarations.flatMap Declaration.tokens

def ProperName (name : String) : Prop :=
  name.toList.head?.any Lexer.isIdentStart ∧ name.toList.all Lexer.isIdentChar ∧
    Lexer.word name.toList = .ident name

instance (name : String) : Decidable (ProperName name) := inferInstanceAs (Decidable (_ ∧ _ ∧ _))

/-- A line after a hash, without white space at its end. -/
def ProperDirective (text : String) : Prop :=
  text.toList.head? = some '#' ∧ '\n' ∉ text.toList ∧ Text.trimEnd text.toList = text.toList

/-- The tokens that a source can be cut into. -/
def Token.Proper : Token → Prop
  | .ident name => ProperName name
  | .float v => v.isFinite ∧ v.negative = false
  | .directive text => ProperDirective text
  | _ => True

/-- How loosely an expression binds: 0 where a suffix can follow it, 1 after a prefix operator, one
more than the operator's level for a binary one. -/
def Expr.level : Expr → Nat
  | unary _ op _ => if op.isPostfix then 0 else 1
  | binary _ op _ _ => op.level + 1
  | ternary _ _ _ _ => BinaryOp.loosest + 2
  | assign _ _ _ _ => BinaryOp.loosest + 3
  | _ => 0

mutual

def Expr.WellFormed : Expr → Prop
  | literal _ v => v.token.Proper
  | name _ n => ProperName n
  | paren _ e => e.WellFormed
  | unary _ op e => e.WellFormed ∧ e.level ≤ if op.isPostfix then 0 else 1
  | binary _ op l r =>
    l.WellFormed ∧ r.WellFormed ∧ l.level ≤ op.level + 1 ∧ r.level ≤ op.level
  | assign _ _ l r => l.WellFormed ∧ r.WellFormed ∧ l.level ≤ BinaryOp.loosest + 1
  | ternary _ c y n =>
    c.WellFormed ∧ y.WellFormed ∧ n.WellFormed ∧ c.level ≤ BinaryOp.loosest + 1
  | call _ f args => ProperName f ∧ WellFormedArgs args
  | index _ b i => b.WellFormed ∧ i.WellFormed ∧ b.level = 0
  | member _ b f => b.WellFormed ∧ ProperName f ∧ b.level = 0

def Expr.WellFormedArgs : List Expr → Prop
  | [] => True
  | e :: es => e.WellFormed ∧ WellFormedArgs es

end

/-- A layout value is read as a signed number. -/
def LayoutItem.WellFormed (item : LayoutItem) : Prop :=
  ProperName item.name ∧ ∀ v ∈ item.value, v.toNat < 2147483648

theorem toUInt32_lt {v : Int32} (h : 0 ≤ v) : v.toUInt32.toNat < 2147483648 := by
  have hv : 0 ≤ v.toBitVec.toInt := by simpa [Int32.le_iff_toInt_le] using h
  have hlt : 2 * v.toBitVec.toNat < 2 ^ 32 := by
    by_contra hge
    have hneg := BitVec.toInt_eq_toNat_cond v.toBitVec
    rw [if_neg hge] at hneg
    have hbound := v.toBitVec.isLt
    omega
  have heq : v.toUInt32.toNat = v.toBitVec.toNat := rfl
  omega

theorem toInt32_nonneg {v : UInt32} (h : v.toNat < 2147483648) : 0 ≤ v.toInt32 := by
  have hcond := BitVec.toInt_eq_toNat_cond v.toBitVec
  have hnat : v.toBitVec.toNat = v.toNat := rfl
  have hint : v.toInt32.toInt = v.toBitVec.toInt := rfl
  have hnonneg : 0 ≤ v.toInt32.toInt := by
    rw [hint, hcond, if_pos (by omega)]
    exact Int.natCast_nonneg _
  simpa [Int32.le_iff_toInt_le] using hnonneg

def Qualifier.WellFormed : Qualifier → Prop
  | layout items => items ≠ [] ∧ ∀ item ∈ items, item.WellFormed
  | _ => True

def QualifiedType.WellFormed (t : QualifiedType) : Prop := ∀ q ∈ t.qualifiers, q.WellFormed

def ArraySuffix.WellFormed (a : ArraySuffix) : Prop := ∀ e ∈ a.size, e.WellFormed

def Declarator.WellFormed (d : Declarator) : Prop :=
  ProperName d.name ∧ (∀ a ∈ d.array, a.WellFormed) ∧ ∀ e ∈ d.init, e.WellFormed

def Variables.WellFormed (v : Variables) : Prop :=
  v.type.WellFormed ∧ v.vars ≠ [] ∧ ∀ d ∈ v.vars, d.WellFormed

namespace Stmt

/-- An `else` after the statement would become part of it. -/
def Open : Stmt → Prop
  | ifThen _ _ _ => True
  | ifElse _ _ _ n => n.Open
  | forLoop _ _ _ _ body => body.Open
  | whileLoop _ _ body => body.Open
  | _ => False

/-- What may stand first in the head of a loop. -/
def IsLoopInit : Stmt → Prop
  | declare _ _ => True
  | expr _ _ => True
  | empty _ => True
  | _ => False

mutual

def WellFormed : Stmt → Prop
  | block _ body => WellFormedBody body
  | declare _ vars => vars.WellFormed
  | expr _ e => e.WellFormed
  | ifThen _ c y => c.WellFormed ∧ y.WellFormed
  | ifElse _ c y n => c.WellFormed ∧ y.WellFormed ∧ n.WellFormed ∧ ¬y.Open
  | forLoop _ init c step body =>
    init.WellFormed ∧ init.IsLoopInit ∧ (∀ e ∈ c, e.WellFormed) ∧ (∀ e ∈ step, e.WellFormed) ∧
      body.WellFormed
  | whileLoop _ c body => c.WellFormed ∧ body.WellFormed
  | doWhile _ body c => body.WellFormed ∧ c.WellFormed
  | ret _ e => ∀ v ∈ e, v.WellFormed
  | jump _ _ => True
  | empty _ => True

def WellFormedBody : List Stmt → Prop
  | [] => True
  | s :: rest => s.WellFormed ∧ WellFormedBody rest

end

end Stmt

def Param.WellFormed (p : Param) : Prop :=
  p.type.WellFormed ∧ (∀ n ∈ p.name, ProperName n) ∧ ∀ a ∈ p.array, a.WellFormed

/-- One unnamed parameter of type `void` is none. -/
def Function.WellFormed (f : Function) : Prop :=
  f.returns.WellFormed ∧ ProperName f.name ∧ (∀ p ∈ f.params, p.WellFormed) ∧
    f.params ≠ [⟨⟨[], .void⟩, none, none⟩] ∧ ∀ body ∈ f.body, Stmt.WellFormedBody body

def BlockMember.WellFormed (m : BlockMember) : Prop :=
  m.type.WellFormed ∧ ProperName m.name ∧ ∀ a ∈ m.array, a.WellFormed

def InterfaceBlock.WellFormed (b : InterfaceBlock) : Prop :=
  b.qualifiers ≠ [] ∧ (∀ q ∈ b.qualifiers, q.WellFormed) ∧ ProperName b.name ∧
    (∀ m ∈ b.members, m.WellFormed) ∧ ∀ n ∈ b.instanceName, ProperName n

def Declaration.WellFormed : Declaration → Prop
  | directive _ text => ProperDirective text
  | precision _ _ _ => True
  | globals _ vars => vars.WellFormed
  | interfaceBlock _ b => b.WellFormed
  | qualifiers _ list => list ≠ [] ∧ ∀ q ∈ list, q.WellFormed
  | function _ f => f.WellFormed

def Shader.WellFormed (s : Shader) : Prop := ∀ d ∈ s.declarations, d.WellFormed

end ShaderLift
