import Mathlib
import ShaderLift.Proofs.ReaderResults
import ShaderLift.Proofs.Substitution

/-!
What keeps a tree well-formed: identities do not matter, an expression may give way to one that any
operator takes as an operand, and declarations may be taken out and put in.
-/

namespace ShaderLift

open Grammar

@[simp] theorem Expr.level_unnumbered (e : Expr) : e.unnumbered.level = e.level := by
  cases e <;> rfl

mutual

@[simp] theorem Expr.wellFormed_unnumbered : ∀ e : Expr, e.unnumbered.WellFormed ↔ e.WellFormed
  | literal _ _ => Iff.rfl
  | name _ _ => Iff.rfl
  | paren _ e => by simp [unnumbered, WellFormed, e.wellFormed_unnumbered]
  | unary _ _ e => by simp [unnumbered, WellFormed, e.wellFormed_unnumbered]
  | binary _ _ l r | assign _ _ l r => by
    simp [unnumbered, WellFormed, l.wellFormed_unnumbered, r.wellFormed_unnumbered]
  | ternary _ c y n => by
    simp [unnumbered, WellFormed, c.wellFormed_unnumbered, y.wellFormed_unnumbered,
      n.wellFormed_unnumbered]
  | call _ _ args => by simp [unnumbered, WellFormed, wellFormedArgs_unnumbered args]
  | index _ b i => by
    simp [unnumbered, WellFormed, b.wellFormed_unnumbered, i.wellFormed_unnumbered]
  | member _ b _ => by simp [unnumbered, WellFormed, b.wellFormed_unnumbered]

@[simp] theorem Expr.wellFormedArgs_unnumbered : ∀ args : List Expr,
    WellFormedArgs (unnumberedArgs args) ↔ WellFormedArgs args
  | [] => Iff.rfl
  | e :: es => by
    simp [unnumberedArgs, WellFormedArgs, e.wellFormed_unnumbered, wellFormedArgs_unnumbered es]

end

@[simp] theorem ArraySuffix.wellFormed_unnumbered (a : ArraySuffix) :
    a.unnumbered.WellFormed ↔ a.WellFormed := by simp [unnumbered, WellFormed]

@[simp] theorem Variables.wellFormed_unnumbered (v : Variables) :
    v.unnumbered.WellFormed ↔ v.WellFormed := by
  simp [unnumbered, WellFormed, Declarator.unnumbered, Declarator.WellFormed]

theorem Stmt.open_unnumbered : ∀ s : Stmt, s.unnumbered.Open ↔ s.Open
  | block _ _ | declare _ _ | expr _ _ | doWhile _ _ _ | ret _ _ | jump _ _ | empty _ => Iff.rfl
  | ifThen _ _ _ => Iff.rfl
  | ifElse _ _ _ n => n.open_unnumbered
  | forLoop _ _ _ _ body => body.open_unnumbered
  | whileLoop _ _ body => body.open_unnumbered

@[simp] theorem Stmt.isLoopInit_unnumbered (s : Stmt) : s.unnumbered.IsLoopInit ↔ s.IsLoopInit := by
  cases s <;> rfl

mutual

@[simp] theorem Stmt.wellFormed_unnumbered : ∀ s : Stmt, s.unnumbered.WellFormed ↔ s.WellFormed
  | block _ body => by simp [unnumbered, WellFormed, wellFormedBody_unnumbered body]
  | declare _ _ => by simp [unnumbered, WellFormed]
  | expr _ _ => by simp [unnumbered, WellFormed]
  | ifThen _ _ y => by simp [unnumbered, WellFormed, y.wellFormed_unnumbered]
  | ifElse _ _ y n => by
    simp [unnumbered, WellFormed, y.wellFormed_unnumbered, n.wellFormed_unnumbered,
      y.open_unnumbered]
  | forLoop _ init _ _ body => by
    simp [unnumbered, WellFormed, init.wellFormed_unnumbered, body.wellFormed_unnumbered]
  | whileLoop _ _ body | doWhile _ body _ => by
    simp [unnumbered, WellFormed, body.wellFormed_unnumbered]
  | ret _ _ => by simp [unnumbered, WellFormed]
  | jump _ _ => Iff.rfl
  | empty _ => Iff.rfl

@[simp] theorem Stmt.wellFormedBody_unnumbered : ∀ body : List Stmt,
    WellFormedBody (unnumberedBody body) ↔ WellFormedBody body
  | [] => Iff.rfl
  | s :: rest => by
    simp [unnumberedBody, WellFormedBody, s.wellFormed_unnumbered, wellFormedBody_unnumbered rest]

end

/-- Mapping parameters makes no lone `void` and leaves none out. -/
theorem map_eq_void_iff {f : Param → Param} {params : List Param}
    (hf : ∀ p, f p = ⟨⟨[], .void⟩, none, none⟩ ↔ p = ⟨⟨[], .void⟩, none, none⟩) :
    params.map f = [⟨⟨[], .void⟩, none, none⟩] ↔ params = [⟨⟨[], .void⟩, none, none⟩] := by
  rw [List.map_eq_singleton_iff]
  constructor
  · rintro ⟨p, rfl, hp⟩
    rw [(hf p).1 hp]
  · rintro rfl
    exact ⟨_, rfl, (hf _).2 rfl⟩

@[simp] theorem Function.wellFormed_unnumbered (f : Function) :
    f.unnumbered.WellFormed ↔ f.WellFormed := by
  have hvoid : f.params.map Param.unnumbered = [⟨⟨[], .void⟩, none, none⟩] ↔
      f.params = [⟨⟨[], .void⟩, none, none⟩] :=
    map_eq_void_iff fun p => by cases p; simp [Param.unnumbered]
  simp [unnumbered, WellFormed, hvoid]
  simp [Param.unnumbered, Param.WellFormed]

@[simp] theorem Declaration.wellFormed_unnumbered (d : Declaration) :
    d.unnumbered.WellFormed ↔ d.WellFormed := by
  cases d with
  | interfaceBlock id b =>
    simp [unnumbered, WellFormed, InterfaceBlock.WellFormed, BlockMember.unnumbered,
      BlockMember.WellFormed]
  | _ => simp [unnumbered, WellFormed]

theorem Shader.wellFormed_unnumbered (s : Shader) : s.unnumbered.WellFormed ↔ s.WellFormed := by
  simp [unnumbered, WellFormed]

theorem Shader.WellFormed.number {s : Shader} (h : s.WellFormed) (ids : IdSupply) :
    (s.number ids).1.WellFormed := by
  rwa [← wellFormed_unnumbered, unnumbered_number, wellFormed_unnumbered]

/-- What is put in place binds as tightly as anything. -/
def Substitution.Operands (σ : Substitution) : Prop :=
  ∀ id e, σ id = some e → e.WellFormed ∧ e.level = 0

section

variable {σ : Substitution}

theorem Substitution.Operands.getD (hσ : σ.Operands) {id : NodeId} {e : Expr} (he : e.WellFormed) :
    ((σ id).getD e).WellFormed ∧ ((σ id).getD e).level ≤ e.level := by
  cases h : σ id with
  | none => exact ⟨he, Nat.le_refl _⟩
  | some new => exact ⟨(hσ id new h).1, (hσ id new h).2 ▸ Nat.zero_le _⟩

mutual

theorem Expr.substitute_wellFormed (hσ : σ.Operands) : ∀ e : Expr, e.WellFormed →
    (e.substitute σ).WellFormed ∧ (e.substitute σ).level ≤ e.level
  | literal _ _, h | name _ _, h => hσ.getD h
  | paren _ e, h => hσ.getD (e := paren _ (e.substitute σ)) (e.substitute_wellFormed hσ h).1
  | unary id op e, h => by
    have he := e.substitute_wellFormed hσ h.1
    exact hσ.getD (e := unary id op (e.substitute σ)) ⟨he.1, he.2.trans h.2⟩
  | binary id op l r, h => by
    have hl := l.substitute_wellFormed hσ h.1
    have hr := r.substitute_wellFormed hσ h.2.1
    exact hσ.getD (e := binary id op (l.substitute σ) (r.substitute σ))
      ⟨hl.1, hr.1, hl.2.trans h.2.2.1, hr.2.trans h.2.2.2⟩
  | assign id op l r, h => by
    have hl := l.substitute_wellFormed hσ h.1
    have hr := r.substitute_wellFormed hσ h.2.1
    exact hσ.getD (e := assign id op (l.substitute σ) (r.substitute σ))
      ⟨hl.1, hr.1, hl.2.trans h.2.2⟩
  | ternary id c y n, h => by
    have hc := c.substitute_wellFormed hσ h.1
    have hy := y.substitute_wellFormed hσ h.2.1
    have hn := n.substitute_wellFormed hσ h.2.2.1
    exact hσ.getD (e := ternary id (c.substitute σ) (y.substitute σ) (n.substitute σ))
      ⟨hc.1, hy.1, hn.1, hc.2.trans h.2.2.2⟩
  | call id f args, h =>
    hσ.getD (e := call id f (substituteArgs σ args))
      ⟨h.1, substituteArgs_wellFormed hσ args h.2⟩
  | index id b i, h => by
    have hb := b.substitute_wellFormed hσ h.1
    have hi := i.substitute_wellFormed hσ h.2.1
    exact hσ.getD (e := index id (b.substitute σ) (i.substitute σ))
      ⟨hb.1, hi.1, Nat.le_zero.1 (hb.2.trans (Nat.le_of_eq h.2.2))⟩
  | member id b f, h => by
    have hb := b.substitute_wellFormed hσ h.1
    exact hσ.getD (e := member id (b.substitute σ) f)
      ⟨hb.1, h.2.1, Nat.le_zero.1 (hb.2.trans (Nat.le_of_eq h.2.2))⟩

theorem Expr.substituteArgs_wellFormed (hσ : σ.Operands) : ∀ args : List Expr,
    WellFormedArgs args → WellFormedArgs (substituteArgs σ args)
  | [], _ => trivial
  | e :: es, h => ⟨(e.substitute_wellFormed hσ h.1).1, substituteArgs_wellFormed hσ es h.2⟩

end

theorem substituteOption_wellFormed (hσ : σ.Operands) {e : Option Expr}
    (h : ∀ v ∈ e, v.WellFormed) : ∀ v ∈ e.map (Expr.substitute σ), v.WellFormed := by
  intro v hv
  obtain ⟨u, hu, rfl⟩ := Option.mem_map.1 hv
  exact (u.substitute_wellFormed hσ (h u hu)).1

theorem substituteSuffix_wellFormed (hσ : σ.Operands) {a : Option ArraySuffix}
    (h : ∀ v ∈ a, v.WellFormed) : ∀ v ∈ a.map (ArraySuffix.substitute σ), v.WellFormed := by
  intro v hv
  obtain ⟨u, hu, rfl⟩ := Option.mem_map.1 hv
  exact substituteOption_wellFormed hσ (h u hu)

theorem Variables.substitute_wellFormed (hσ : σ.Operands) {v : Variables} (h : v.WellFormed) :
    (v.substitute σ).WellFormed := by
  refine ⟨h.1, by simpa [substitute] using h.2.1, fun d hd => ?_⟩
  obtain ⟨old, hold, rfl⟩ := List.mem_map.1 hd
  obtain ⟨hname, harray, hinit⟩ := h.2.2 old hold
  exact ⟨hname, substituteSuffix_wellFormed hσ harray, substituteOption_wellFormed hσ hinit⟩

theorem Stmt.open_substitute : ∀ s : Stmt, (s.substitute σ).Open ↔ s.Open
  | block _ _ | declare _ _ | expr _ _ | doWhile _ _ _ | ret _ _ | jump _ _ | empty _ => Iff.rfl
  | ifThen _ _ _ => Iff.rfl
  | ifElse _ _ _ n => n.open_substitute
  | forLoop _ _ _ _ body => body.open_substitute
  | whileLoop _ _ body => body.open_substitute

mutual

theorem Stmt.substitute_wellFormed (hσ : σ.Operands) : ∀ s : Stmt, s.WellFormed →
    (s.substitute σ).WellFormed
  | block _ body, h => substituteBody_wellFormed hσ body h
  | declare _ _, h => Variables.substitute_wellFormed hσ h
  | expr _ e, h => (e.substitute_wellFormed hσ h).1
  | ifThen _ c y, h => ⟨(c.substitute_wellFormed hσ h.1).1, y.substitute_wellFormed hσ h.2⟩
  | ifElse _ c y n, h =>
    ⟨(c.substitute_wellFormed hσ h.1).1, y.substitute_wellFormed hσ h.2.1,
      n.substitute_wellFormed hσ h.2.2.1, fun hopen => h.2.2.2 (y.open_substitute.1 hopen)⟩
  | forLoop _ init c step body, h => by
    obtain ⟨hinit, hloop, hc, hstep, hbody⟩ := h
    refine ⟨init.substitute_wellFormed hσ hinit, ?_, substituteOption_wellFormed hσ hc,
      substituteOption_wellFormed hσ hstep, body.substitute_wellFormed hσ hbody⟩
    cases init <;> first | exact hloop.elim | trivial
  | whileLoop _ c body, h => ⟨(c.substitute_wellFormed hσ h.1).1, body.substitute_wellFormed hσ h.2⟩
  | doWhile _ body c, h => ⟨body.substitute_wellFormed hσ h.1, (c.substitute_wellFormed hσ h.2).1⟩
  | ret _ _, h => substituteOption_wellFormed hσ h
  | jump _ _, _ => trivial
  | empty _, _ => trivial

theorem Stmt.substituteBody_wellFormed (hσ : σ.Operands) : ∀ body : List Stmt,
    WellFormedBody body → WellFormedBody (substituteBody σ body)
  | [], _ => trivial
  | s :: rest, h => ⟨s.substitute_wellFormed hσ h.1, substituteBody_wellFormed hσ rest h.2⟩

end

theorem Declaration.substitute_wellFormed (hσ : σ.Operands) {d : Declaration} (h : d.WellFormed) :
    (d.substitute σ).WellFormed := by
  cases d with
  | globals id vars => exact Variables.substitute_wellFormed hσ h
  | interfaceBlock id b =>
    refine ⟨h.1, h.2.1, h.2.2.1, fun m hm => ?_, h.2.2.2.2⟩
    obtain ⟨old, hold, rfl⟩ := List.mem_map.1 hm
    obtain ⟨htype, hname, harray⟩ := h.2.2.2.1 old hold
    exact ⟨htype, hname, substituteSuffix_wellFormed hσ harray⟩
  | function id f =>
    obtain ⟨hreturns, hname, hparams, hvoid, hbody⟩ := h
    refine ⟨hreturns, hname, fun p hp => ?_, ?_, fun body hb => ?_⟩
    · obtain ⟨old, hold, rfl⟩ := List.mem_map.1 hp
      obtain ⟨htype, hname, harray⟩ := hparams old hold
      exact ⟨htype, hname, substituteSuffix_wellFormed hσ harray⟩
    · have hiff : f.params.map (Param.substitute σ) = [⟨⟨[], .void⟩, none, none⟩] ↔ _ :=
        map_eq_void_iff fun p => by cases p; simp [Param.substitute]
      exact fun heq => hvoid (hiff.1 heq)
    · obtain ⟨old, hold, rfl⟩ := Option.mem_map.1 hb
      exact Stmt.substituteBody_wellFormed hσ old (hbody old hold)
  | _ => exact h

theorem Shader.substitute_wellFormed (hσ : σ.Operands) {s : Shader} (h : s.WellFormed) :
    (s.substitute σ).WellFormed := by
  intro d hd
  obtain ⟨old, hold, rfl⟩ := List.mem_map.1 hd
  exact Declaration.substitute_wellFormed hσ (h old hold)

end

end ShaderLift
