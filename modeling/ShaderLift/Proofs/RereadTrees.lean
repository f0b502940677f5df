import Mathlib
import ShaderLift.Proofs.Spelling
import ShaderLift.Tree.Text

/-!
The tree that is read from the text of a tree. A negative number is read as the negation of one, and
not only of the number but of what is suffixed to it; with a minus sign in front it is decremented.
The array of a parameter without a name is not written.
-/

namespace ShaderLift

theorem UnaryOp.isSign_of_isPostfix {op : UnaryOp} (h : op.isPostfix) : op.isSign = false := by
  cases op <;> first | rfl | cases h

def Literal.isNegative : Literal → Bool
  | int v => v < 0
  | _ => false

/-- The number that is written after the sign. For the least one this is itself. -/
def Literal.magnitude : Literal → Literal
  | int v => int (if v < 0 then -v else v)
  | v => v

namespace Expr

/-- The text starts with the sign of a number. -/
def isNegative : Expr → Bool
  | literal _ v => v.isNegative
  | unary _ op e => op.isPostfix && e.isNegative
  | index _ b _ => b.isNegative
  | member _ b _ => b.isNegative
  | _ => false

def signed (negative : Bool) (e : Expr) : Expr := if negative then unary .unassigned .neg e else e

mutual

/-- What is read after the sign of a number at the start. -/
def magnitude : Expr → Expr
  | literal id v => literal id v.magnitude
  | name id n => name id n
  | paren id e => paren id (signed e.isNegative e.magnitude)
  | unary id op e =>
    if op.isPostfix then unary id op e.magnitude
    else if e.isNegative && op = .neg then unary id .preDec e.magnitude
    else unary id op (signed e.isNegative e.magnitude)
  | binary id op l r =>
    binary id op (signed l.isNegative l.magnitude) (signed r.isNegative r.magnitude)
  | assign id op l r =>
    assign id op (signed l.isNegative l.magnitude) (signed r.isNegative r.magnitude)
  | ternary id c y n =>
    ternary id (signed c.isNegative c.magnitude) (signed y.isNegative y.magnitude)
      (signed n.isNegative n.magnitude)
  | call id f args => call id f (rereadArgs args)
  | index id b i => index id b.magnitude (signed i.isNegative i.magnitude)
  | member id b f => member id b.magnitude f

def rereadArgs : List Expr → List Expr
  | [] => []
  | e :: es => signed e.isNegative e.magnitude :: rereadArgs es

end

def reread (e : Expr) : Expr := signed e.isNegative e.magnitude

theorem level_of_isNegative {e : Expr} (h : e.isNegative) : e.level = 0 := by
  cases e with
  | unary id op e => simp_all [isNegative, level]
  | literal id v => rfl
  | index id b i => rfl
  | member id b f => rfl
  | _ => cases h

theorem level_magnitude (e : Expr) : e.magnitude.level = e.level := by
  cases e with
  | unary id op e =>
    simp only [magnitude]
    split_ifs with hpost hneg
    · rfl
    · have hpre : UnaryOp.preDec.isPostfix = false := rfl
      simp [level, hpost, hpre]
    · rfl
  | _ => rfl

theorem level_reread_le {e : Expr} {level : Nat} (h : e.level ≤ level) (hlevel : 1 ≤ level) :
    e.reread.level ≤ level := by
  cases hneg : e.isNegative with
  | true => simpa [reread, signed, hneg, Expr.level, UnaryOp.isPostfix] using hlevel
  | false => simpa [reread, signed, hneg, level_magnitude] using h

theorem isSign_of_isNegative {e : Expr} (h : e.isNegative) :
    e.isSign = false ∧ e.magnitude.isSign = false := by
  cases e with
  | unary id op e =>
    have hpost : op.isPostfix := by simp_all [isNegative]
    simp [magnitude, hpost, isSign, UnaryOp.isSign_of_isPostfix hpost]
  | literal id v => exact ⟨rfl, rfl⟩
  | index id b i => exact ⟨rfl, rfl⟩
  | member id b f => exact ⟨rfl, rfl⟩
  | _ => cases h

theorem isSign_magnitude (e : Expr) : e.magnitude.isSign = e.isSign := by
  cases e with
  | unary id op e =>
    simp only [magnitude]
    split_ifs with hpost hneg
    · rfl
    · obtain ⟨-, rfl⟩ : e.isNegative = true ∧ op = .neg := by simpa using hneg
      rfl
    · rfl
  | _ => rfl

end Expr

def ArraySuffix.reread (a : ArraySuffix) : ArraySuffix := ⟨a.size.map Expr.reread⟩

def Declarator.reread (d : Declarator) : Declarator :=
  { d with array := d.array.map ArraySuffix.reread, init := d.init.map Expr.reread }

def Variables.reread (v : Variables) : Variables :=
  { v with vars := v.vars.map Declarator.reread }

mutual

def Stmt.reread : Stmt → Stmt
  | block id body => block id (rereadBody body)
  | declare id vars => declare id vars.reread
  | expr id e => expr id e.reread
  | ifThen id c y => ifThen id c.reread y.reread
  | ifElse id c y n => ifElse id c.reread y.reread n.reread
  | forLoop id init c s body =>
    forLoop id init.reread (c.map Expr.reread) (s.map Expr.reread) body.reread
  | whileLoop id c body => whileLoop id c.reread body.reread
  | doWhile id body c => doWhile id body.reread c.reread
  | ret id e => ret id (e.map Expr.reread)
  | jump id k => jump id k
  | empty id => empty id

def Stmt.rereadBody : List Stmt → List Stmt
  | [] => []
  | s :: rest => s.reread :: rereadBody rest

end

def BlockMember.reread (m : BlockMember) : BlockMember :=
  { m with array := m.array.map ArraySuffix.reread }

/-- Without a name there are no brackets. -/
def Param.written (p : Param) : Param := if p.name = none then { p with array := none } else p

def Function.written (f : Function) : Function := { f with params := f.params.map Param.written }

def Declaration.written : Declaration → Declaration
  | function id f => function id f.written
  | d => d

/-- The shader without what its text leaves out. -/
def Shader.written (s : Shader) : Shader := ⟨s.declarations.map Declaration.written⟩

def Param.reread (p : Param) : Param :=
  { p.written with array := p.written.array.map ArraySuffix.reread }

def Function.reread (f : Function) : Function :=
  { f with params := f.params.map Param.reread, body := f.body.map Stmt.rereadBody }

def Declaration.reread : Declaration → Declaration
  | directive id t => directive id t
  | precision id p t => precision id p t
  | globals id vars => globals id vars.reread
  | interfaceBlock id b =>
    interfaceBlock id { b with members := b.members.map BlockMember.reread }
  | qualifiers id q => qualifiers id q
  | function id f => function id f.reread

/-- What is read from the text of the shader. -/
def Shader.reread (s : Shader) : Shader := ⟨s.declarations.map Declaration.reread⟩

/-- After a whole number a point would be part of it. -/
def Node.Legible : Node → Prop
  | expression (.member _ (.literal _ (.int _)) _) => False
  | _ => True

/-- The text can be read: no point follows a whole number, and a lone `void` stands for no
parameter. -/
structure Shader.Legible (s : Shader) : Prop where
  nodes : ∀ n ∈ s.written.nodes, n.Legible
  params : ∀ id f, .function id f ∈ s.written.declarations → f.params ≠ [⟨⟨[], .void⟩, none, none⟩]

namespace Expr

theorem wellFormed_of_magnitude {e : Expr} (h : e.magnitude.WellFormed) : e.reread.WellFormed := by
  cases hneg : e.isNegative with
  | false => simpa [reread, signed, hneg] using h
  | true =>
    have hlevel : e.magnitude.level = 0 := (level_magnitude e).trans (level_of_isNegative hneg)
    simp [reread, signed, hneg, WellFormed, h, hlevel]

mutual

theorem magnitude_wellFormed : ∀ e : Expr, e.WellFormed → e.magnitude.WellFormed
  | literal _ v, h => by
    cases v with
    | int v => trivial
    | _ => exact h
  | name _ _, h => h
  | paren _ e, h => wellFormed_of_magnitude (e.magnitude_wellFormed h)
  | unary _ op e, h => by
    have he := e.magnitude_wellFormed h.1
    have hlevel := h.2
    simp only [magnitude]
    split_ifs with hpost hneg
    · exact ⟨he, (level_magnitude e).trans_le hlevel⟩
    · rw [if_neg hpost] at hlevel
      exact ⟨he, (level_magnitude e).trans_le hlevel⟩
    · refine ⟨wellFormed_of_magnitude he, ?_⟩
      rw [if_neg hpost] at hlevel ⊢
      exact level_reread_le hlevel (Nat.le_refl 1)
  | binary _ op l r, h => by
    have hop : 1 ≤ op.level := by cases op <;> decide
    exact ⟨wellFormed_of_magnitude (l.magnitude_wellFormed h.1),
      wellFormed_of_magnitude (r.magnitude_wellFormed h.2.1),
      level_reread_le h.2.2.1 (by omega), level_reread_le h.2.2.2 hop⟩
  | assign _ op l r, h =>
    ⟨wellFormed_of_magnitude (l.magnitude_wellFormed h.1),
      wellFormed_of_magnitude (r.magnitude_wellFormed h.2.1), level_reread_le h.2.2 (by decide)⟩
  | ternary _ c y n, h =>
    ⟨wellFormed_of_magnitude (c.magnitude_wellFormed h.1),
      wellFormed_of_magnitude (y.magnitude_wellFormed h.2.1),
      wellFormed_of_magnitude (n.magnitude_wellFormed h.2.2.1), level_reread_le h.2.2.2 (by decide)⟩
  | call _ f args, h => ⟨h.1, rereadArgs_wellFormed args h.2⟩
  | index _ b i, h =>
    ⟨b.magnitude_wellFormed h.1, wellFormed_of_magnitude (i.magnitude_wellFormed h.2.1),
      (level_magnitude b).trans h.2.2⟩
  | member _ b f, h => ⟨b.magnitude_wellFormed h.1, h.2.1, (level_magnitude b).trans h.2.2⟩

theorem rereadArgs_wellFormed : ∀ args : List Expr, WellFormedArgs args →
    WellFormedArgs (rereadArgs args)
  | [], _ => trivial
  | e :: es, h =>
    ⟨wellFormed_of_magnitude (e.magnitude_wellFormed h.1), rereadArgs_wellFormed es h.2⟩

end

theorem reread_wellFormed {e : Expr} (h : e.WellFormed) : e.reread.WellFormed :=
  wellFormed_of_magnitude (magnitude_wellFormed e h)

end Expr

theorem rereadOption_wellFormed {e : Option Expr} (h : ∀ v ∈ e, v.WellFormed) :
    ∀ v ∈ e.map Expr.reread, v.WellFormed := by
  intro v hv
  obtain ⟨u, hu, rfl⟩ := Option.mem_map.1 hv
  exact Expr.reread_wellFormed (h u hu)

theorem rereadSuffix_wellFormed {a : Option ArraySuffix} (h : ∀ v ∈ a, v.WellFormed) :
    ∀ v ∈ a.map ArraySuffix.reread, v.WellFormed := by
  intro v hv
  obtain ⟨u, hu, rfl⟩ := Option.mem_map.1 hv
  exact rereadOption_wellFormed (h u hu)

theorem Variables.reread_wellFormed {v : Variables} (h : v.WellFormed) : v.reread.WellFormed := by
  refine ⟨h.1, by simpa [reread] using h.2.1, fun d hd => ?_⟩
  obtain ⟨old, hold, rfl⟩ := List.mem_map.1 hd
  obtain ⟨hname, harray, hinit⟩ := h.2.2 old hold
  exact ⟨hname, rereadSuffix_wellFormed harray, rereadOption_wellFormed hinit⟩

theorem Stmt.open_reread : ∀ s : Stmt, s.reread.Open ↔ s.Open
  | block _ _ | declare _ _ | expr _ _ | doWhile _ _ _ | ret _ _ | jump _ _ | empty _ => Iff.rfl
  | ifThen _ _ _ => Iff.rfl
  | ifElse _ _ _ n => n.open_reread
  | forLoop _ _ _ _ body => body.open_reread
  | whileLoop _ _ body => body.open_reread

mutual

theorem Stmt.reread_wellFormed : ∀ s : Stmt, s.WellFormed → s.reread.WellFormed
  | block _ body, h => rereadBody_wellFormed body h
  | declare _ _, h => Variables.reread_wellFormed h
  | expr _ e, h => Expr.reread_wellFormed h
  | ifThen _ c y, h => ⟨Expr.reread_wellFormed h.1, y.reread_wellFormed h.2⟩
  | ifElse _ c y n, h =>
    ⟨Expr.reread_wellFormed h.1, y.reread_wellFormed h.2.1, n.reread_wellFormed h.2.2.1,
      fun hopen => h.2.2.2 (y.open_reread.1 hopen)⟩
  | forLoop _ init c step body, h => by
    obtain ⟨hinit, hloop, hc, hstep, hbody⟩ := h
    refine ⟨init.reread_wellFormed hinit, ?_, rereadOption_wellFormed hc,
      rereadOption_wellFormed hstep, body.reread_wellFormed hbody⟩
    cases init <;> first | exact hloop.elim | trivial
  | whileLoop _ c body, h => ⟨Expr.reread_wellFormed h.1, body.reread_wellFormed h.2⟩
  | doWhile _ body c, h => ⟨body.reread_wellFormed h.1, Expr.reread_wellFormed h.2⟩
  | ret _ _, h => rereadOption_wellFormed h
  | jump _ _, _ => trivial
  | empty _, _ => trivial

theorem Stmt.rereadBody_wellFormed : ∀ body : List Stmt, WellFormedBody body →
    WellFormedBody (rereadBody body)
  | [], _ => trivial
  | s :: rest, h => ⟨s.reread_wellFormed h.1, rereadBody_wellFormed rest h.2⟩

end

theorem Param.written_wellFormed {p : Param} (h : p.WellFormed) : p.written.WellFormed := by
  unfold written
  split
  · exact ⟨h.1, h.2.1, nofun⟩
  · exact h

theorem Function.reread_wellFormed {f : Function} (h : f.WellFormed)
    (hvoid : f.written.params ≠ [⟨⟨[], .void⟩, none, none⟩]) : f.reread.WellFormed := by
  obtain ⟨hreturns, hname, hparams, -, hbody⟩ := h
  refine ⟨hreturns, hname, fun p hp => ?_, fun hlone => hvoid ?_, fun body hb => ?_⟩
  · obtain ⟨old, hold, rfl⟩ := List.mem_map.1 hp
    obtain ⟨htype, hname, harray⟩ := Param.written_wellFormed (hparams old hold)
    exact ⟨htype, hname, rereadSuffix_wellFormed harray⟩
  · obtain ⟨p, hp, hreread⟩ := List.map_eq_singleton_iff.1 hlone
    have hsame : p.written = ⟨⟨[], .void⟩, none, none⟩ := by
      rw [Param.reread] at hreread
      rcases hw : p.written with ⟨type, name, array⟩
      simp only [hw, Param.mk.injEq, Option.map_eq_none_iff] at hreread
      obtain ⟨rfl, rfl, rfl⟩ := hreread
      rfl
    rw [written, hp, List.map_singleton, hsame]
  · obtain ⟨old, hold, rfl⟩ := Option.mem_map.1 hb
    exact Stmt.rereadBody_wellFormed old (hbody old hold)

theorem Declaration.reread_wellFormed {d : Declaration} (h : d.WellFormed)
    (hvoid : ∀ id f, d.written = .function id f → f.params ≠ [⟨⟨[], .void⟩, none, none⟩]) :
    d.reread.WellFormed := by
  cases d with
  | globals id vars => exact Variables.reread_wellFormed h
  | interfaceBlock id b =>
    refine ⟨h.1, h.2.1, h.2.2.1, fun m hm => ?_, h.2.2.2.2⟩
    obtain ⟨old, hold, rfl⟩ := List.mem_map.1 hm
    obtain ⟨htype, hname, harray⟩ := h.2.2.2.1 old hold
    exact ⟨htype, hname, rereadSuffix_wellFormed harray⟩
  | function id f => exact Function.reread_wellFormed h (hvoid id f.written rfl)
  | _ => exact h

theorem Shader.reread_wellFormed {s : Shader} (h : s.WellFormed) (hlegible : s.Legible) :
    s.reread.WellFormed := by
  intro d hd
  obtain ⟨old, hold, rfl⟩ := List.mem_map.1 hd
  refine Declaration.reread_wellFormed (h old hold) fun id f heq => hlegible.params id f ?_
  exact List.mem_map.2 ⟨old, hold, heq⟩

/-- The node's text says all there is about it. A negative literal reads as an operator before a
number, a point after a whole number as part of it, and the brackets of a parameter without a name
are not written. -/
def Node.Printable : Node → Prop
  | expression (.literal _ (.int v)) => 0 ≤ v
  | expression (.member _ (.literal _ (.int _)) _) => False
  | declaration (.function _ f) => ∀ p ∈ f.params, p.name = none → p.array = none
  | _ => True

def AllPrintable (nodes : List Node) : Prop := ∀ n ∈ nodes, n.Printable

namespace AllPrintable

variable {n : Node} {a b : List Node}

@[simp] theorem nil_iff : AllPrintable [] ↔ True := by simp [AllPrintable]

@[simp] theorem cons_iff : AllPrintable (n :: a) ↔ n.Printable ∧ AllPrintable a := by
  simp [AllPrintable]

@[simp] theorem append_iff : AllPrintable (a ++ b) ↔ AllPrintable a ∧ AllPrintable b := by
  simp [AllPrintable, or_imp, forall_and]

@[simp] theorem flatMap_iff {α : Type} {f : α → List Node} {xs : List α} :
    AllPrintable (xs.flatMap f) ↔ ∀ x ∈ xs, AllPrintable (f x) := by
  simp only [AllPrintable, List.mem_flatMap]
  grind

end AllPrintable

namespace Expr

mutual

theorem magnitude_of_printable : ∀ e : Expr, AllPrintable e.nodes →
    e.isNegative = false ∧ e.magnitude = e
  | literal id v, h => by
    cases v with
    | int v =>
      have hv : ¬v < 0 := Int32.not_lt.2 (h _ List.mem_cons_self)
      simp [isNegative, magnitude, Literal.isNegative, Literal.magnitude, hv]
    | _ => exact ⟨rfl, rfl⟩
  | name _ _, _ => ⟨rfl, rfl⟩
  | paren _ e, h => by
    simp only [nodes, AllPrintable.cons_iff] at h
    obtain ⟨hneg, he⟩ := e.magnitude_of_printable h.2
    simp [isNegative, magnitude, signed, hneg, he]
  | unary _ op e, h => by
    simp only [nodes, AllPrintable.cons_iff] at h
    obtain ⟨hneg, he⟩ := e.magnitude_of_printable h.2
    simp [isNegative, magnitude, signed, hneg, he]
  | binary _ _ l r, h | assign _ _ l r, h => by
    simp only [nodes, AllPrintable.cons_iff, AllPrintable.append_iff] at h
    obtain ⟨hlneg, hl⟩ := l.magnitude_of_printable h.2.1
    obtain ⟨hrneg, hr⟩ := r.magnitude_of_printable h.2.2
    simp [isNegative, magnitude, signed, hlneg, hl, hrneg, hr]
  | ternary _ c y n, h => by
    simp only [nodes, AllPrintable.cons_iff, AllPrintable.append_iff] at h
    obtain ⟨hcneg, hc⟩ := c.magnitude_of_printable h.2.1.1
    obtain ⟨hyneg, hy⟩ := y.magnitude_of_printable h.2.1.2
    obtain ⟨hnneg, hn⟩ := n.magnitude_of_printable h.2.2
    simp [isNegative, magnitude, signed, hcneg, hc, hyneg, hy, hnneg, hn]
  | call _ _ args, h => by
    simp only [nodes, AllPrintable.cons_iff] at h
    exact ⟨rfl, by rw [magnitude, rereadArgs_of_printable args h.2]⟩
  | index _ b i, h => by
    simp only [nodes, AllPrintable.cons_iff, AllPrintable.append_iff] at h
    obtain ⟨hbneg, hb⟩ := b.magnitude_of_printable h.2.1
    obtain ⟨hineg, hi⟩ := i.magnitude_of_printable h.2.2
    simp [isNegative, magnitude, signed, hbneg, hb, hineg, hi]
  | member _ b _, h => by
    simp only [nodes, AllPrintable.cons_iff] at h
    obtain ⟨hneg, hb⟩ := b.magnitude_of_printable h.2
    simp [isNegative, magnitude, hneg, hb]

theorem rereadArgs_of_printable : ∀ args : List Expr, AllPrintable (nodesOfArgs args) →
    rereadArgs args = args
  | [], _ => rfl
  | e :: es, h => by
    simp only [nodesOfArgs, AllPrintable.append_iff] at h
    obtain ⟨hneg, he⟩ := e.magnitude_of_printable h.1
    rw [rereadArgs, rereadArgs_of_printable es h.2, hneg, he]
    rfl

end

theorem reread_of_printable {e : Expr} (h : AllPrintable e.nodes) : e.reread = e := by
  obtain ⟨hneg, he⟩ := magnitude_of_printable e h
  rw [reread, hneg, he]
  rfl

end Expr

theorem rereadOption_of_printable {e : Option Expr} (h : AllPrintable (nodesOfOption e)) :
    e.map Expr.reread = e := by
  cases e with
  | none => rfl
  | some e => exact congrArg some (Expr.reread_of_printable h)

theorem rereadSuffix_of_printable {a : Option ArraySuffix} (h : AllPrintable (nodesOfSuffix a)) :
    a.map ArraySuffix.reread = a := by
  cases a with
  | none => rfl
  | some a =>
    have hsize : a.size.map Expr.reread = a.size := rereadOption_of_printable h
    rw [Option.map_some, ArraySuffix.reread, hsize]

theorem Variables.reread_of_printable {v : Variables} (h : AllPrintable v.nodes) : v.reread = v := by
  rw [nodes, AllPrintable.flatMap_iff] at h
  have hvars : v.vars.map Declarator.reread = v.vars := map_eq_self fun d hd => by
    have hprint := h d hd
    rw [Declarator.nodes, AllPrintable.append_iff] at hprint
    rw [Declarator.reread, rereadSuffix_of_printable hprint.1, rereadOption_of_printable hprint.2]
  rw [reread, hvars]

mutual

theorem Stmt.reread_of_printable : ∀ s : Stmt, AllPrintable s.nodes → s.reread = s
  | block _ body, h => by
    simp only [nodes, AllPrintable.cons_iff] at h
    rw [reread, rereadBody_of_printable body h.2]
  | declare _ vars, h => by
    simp only [nodes, AllPrintable.cons_iff] at h
    rw [reread, vars.reread_of_printable h.2]
  | expr _ e, h => by
    simp only [nodes, AllPrintable.cons_iff] at h
    rw [reread, e.reread_of_printable h.2]
  | ifThen _ c y, h => by
    simp only [nodes, AllPrintable.cons_iff, AllPrintable.append_iff] at h
    rw [reread, c.reread_of_printable h.2.1, y.reread_of_printable h.2.2]
  | ifElse _ c y n, h => by
    simp only [nodes, AllPrintable.cons_iff, AllPrintable.append_iff, and_assoc] at h
    rw [reread, c.reread_of_printable h.2.1, y.reread_of_printable h.2.2.1,
      n.reread_of_printable h.2.2.2]
  | forLoop _ init c s body, h => by
    simp only [nodes, AllPrintable.cons_iff, AllPrintable.append_iff, and_assoc] at h
    rw [reread, init.reread_of_printable h.2.1, rereadOption_of_printable h.2.2.1,
      rereadOption_of_printable h.2.2.2.1, body.reread_of_printable h.2.2.2.2]
  | whileLoop _ c body, h => by
    simp only [nodes, AllPrintable.cons_iff, AllPrintable.append_iff] at h
    rw [reread, c.reread_of_printable h.2.1, body.reread_of_printable h.2.2]
  | doWhile _ body c, h => by
    simp only [nodes, AllPrintable.cons_iff, AllPrintable.append_iff] at h
    rw [reread, body.reread_of_printable h.2.1, c.reread_of_printable h.2.2]
  | ret _ e, h => by
    simp only [nodes, AllPrintable.cons_iff] at h
    rw [reread, rereadOption_of_printable h.2]
  | jump _ _, _ => rfl
  | empty _, _ => rfl

theorem Stmt.rereadBody_of_printable : ∀ body : List Stmt, AllPrintable (nodesOfBody body) →
    rereadBody body = body
  | [], _ => rfl
  | s :: rest, h => by
    simp only [nodesOfBody, AllPrintable.append_iff] at h
    rw [rereadBody, s.reread_of_printable h.1, rereadBody_of_printable rest h.2]

end

theorem Param.written_of_named {p : Param} (h : p.name = none → p.array = none) : p.written = p := by
  unfold written
  split
  · next hname =>
    obtain ⟨type, name, array⟩ := p
    obtain rfl : array = none := h hname
    rfl
  · rfl

theorem Function.reread_of_printable {f : Function}
    (hparams : AllPrintable (f.params.flatMap fun p => nodesOfSuffix p.array))
    (hnamed : ∀ p ∈ f.params, p.name = none → p.array = none)
    (hbody : AllPrintable (Stmt.nodesOfBody (f.body.getD []))) : f.reread = f := by
  rw [AllPrintable.flatMap_iff] at hparams
  have hsame : f.params.map Param.reread = f.params := map_eq_self fun p hp => by
    rw [Param.reread, Param.written_of_named (hnamed p hp), rereadSuffix_of_printable (hparams p hp)]
  obtain ⟨returns, name, params, body⟩ := f
  cases body with
  | none => rw [reread, hsame, Option.map_none]
  | some body => rw [reread, hsame, Option.map_some, Stmt.rereadBody_of_printable body hbody]

theorem Declaration.reread_of_printable {d : Declaration} (h : AllPrintable d.nodes) :
    d.reread = d := by
  cases d with
  | globals id vars =>
    simp only [nodes, AllPrintable.cons_iff] at h
    rw [reread, vars.reread_of_printable h.2]
  | interfaceBlock id b =>
    simp only [nodes, AllPrintable.cons_iff, AllPrintable.flatMap_iff] at h
    have hmembers : b.members.map BlockMember.reread = b.members := map_eq_self fun m hm => by
      rw [BlockMember.reread, rereadSuffix_of_printable (h.2 m hm)]
    rw [reread, hmembers]
  | function id f =>
    simp only [nodes, AllPrintable.cons_iff, AllPrintable.append_iff] at h
    rw [reread, Function.reread_of_printable h.2.1 h.1 h.2.2]
  | _ => rfl

theorem Shader.reread_of_printable {s : Shader} (h : AllPrintable s.nodes) : s.reread = s := by
  rw [nodes, AllPrintable.flatMap_iff] at h
  rw [reread, map_eq_self fun d hd => Declaration.reread_of_printable (h d hd)]

theorem Node.Printable.legible {n : Node} (h : n.Printable) : n.Legible := by
  unfold Node.Legible
  split
  · exact h
  · trivial

theorem Declaration.written_of_printable {d : Declaration} (h : AllPrintable d.nodes) :
    d.written = d := by
  cases d with
  | function id f =>
    simp only [nodes, AllPrintable.cons_iff] at h
    have hparams : f.params.map Param.written = f.params :=
      map_eq_self fun p hp => Param.written_of_named (h.1 p hp)
    rw [written, Function.written, hparams]
  | _ => rfl

theorem Shader.legible_of_printable {s : Shader} (hwf : s.WellFormed) (h : AllPrintable s.nodes) :
    s.Legible := by
  have hwritten : s.written = s := by
    have hdeclarations := AllPrintable.flatMap_iff.1 h
    rw [written, map_eq_self fun d hd => Declaration.written_of_printable (hdeclarations d hd)]
  constructor
  · rw [hwritten]
    exact fun n hn => (h n hn).legible
  · rw [hwritten]
    exact fun id f hf => (hwf _ hf).2.2.2.1

end ShaderLift
