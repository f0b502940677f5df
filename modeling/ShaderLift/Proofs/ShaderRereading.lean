import Mathlib
import ShaderLift.Proofs.ExprRereading

/-!
Shaders read back: the tokens of a well-formed statement, declaration or shader are read as that
statement, declaration or shader, with identities still to be given.
-/

namespace ShaderLift

def Token.startsExpr : Token → Bool
  | .int _ | .uint _ | .float _ | .bool _ | .ident _ => true
  | .symbol .lparen | .symbol .minus | .symbol .plus | .symbol .bang | .symbol .tilde
  | .symbol .inc | .symbol .dec => true
  | _ => false

def Token.startsType : Token → Bool
  | .ident _ => true
  | .keyword .const | .keyword .uniform | .keyword .in_ | .keyword .out | .keyword .inout
  | .keyword .flat | .keyword .buffer | .keyword .layout => true
  | .keyword .highp | .keyword .mediump | .keyword .lowp => true
  | _ => false

/-- Whether the token is the first of some sort of statement other than a declaration or an
expression. -/
def Token.marksStmt : Token → Bool
  | .symbol .lbrace | .symbol .semi => true
  | .keyword .if_ | .keyword .for_ | .keyword .while_ | .keyword .do_ | .keyword .return_ => true
  | .keyword .break_ | .keyword .continue_ | .keyword .discard => true
  | _ => false

namespace Grammar

theorem Reader.orElse_left {α : Type} {p q : Reader α} {ts : List Token} {x : α × List Token}
    (h : p ts = some x) : (p <|> q) ts = some x := by simp [h]

theorem Reader.orElse_right {α : Type} {p q : Reader α} {ts : List Token} (h : p ts = none) :
    (p <|> q) ts = q ts := by simp [h]

section

variable {limit : Nat} {rest : List Token}

@[simp] theorem keyword_cons (k : Keyword) (t : Token) (ts : List Token) :
    keyword k (t :: ts) = if t = .keyword k then some ((), ts) else none := by
  by_cases h : t = .keyword k <;> simp [keyword, next_cons, h]

theorem keyword_other {k : Keyword} {ts : List Token} (h : ts.head? ≠ some (.keyword k)) :
    keyword k ts = none := by
  refine next_eq_none fun t ht => if_neg ?_
  rintro rfl
  exact h ht

theorem dataType_self (t : DataType) (ts : List Token) : dataType (t.token :: ts) = some (t, ts) := by
  have htext : DataType.ofText? t.text = some t := by
    cases t with
    | mat c r => cases c <;> cases r <;> rfl
    | vec n | ivec n | uvec n | bvec n => cases n <;> rfl
    | _ => rfl
  simp [dataType, DataType.token, next_cons, htext]

theorem layoutItem_reads {item : LayoutItem} (hwf : item.WellFormed)
    (hrest : rest.head? ≠ some (.symbol .assign)) :
    layoutItem (item.tokens ++ rest) = some (item, rest) := by
  obtain ⟨name, value⟩ := item
  cases value with
  | none =>
    simp [LayoutItem.tokens, tokensOrNone, layoutItem, Reader.optional_apply, symbol_other hrest]
  | some v =>
    have hvalue : layoutValue (.int v.toInt32 :: rest) = some (v, rest) := by
      have hnonneg : 0 ≤ v.toInt32 := toInt32_nonneg (hwf.2 v rfl)
      simp [layoutValue, next_cons, hnonneg]
    simp [LayoutItem.tokens, tokensOrNone, layoutItem, Reader.optional_apply, hvalue]

theorem qualifier_reads {q : Qualifier} (hwf : q.WellFormed) (hlen : q.tokens.length ≤ limit) :
    qualifier limit (q.tokens ++ rest) = some (q, rest) := by
  cases q with
  | layout items =>
    have hcount := length_le_commaTokens LayoutItem.tokens items
    simp only [Qualifier.tokens, List.length_cons, List.length_append, List.length_nil] at hlen
    have hitems : commaList1 limit layoutItem
        (commaTokens (items.map LayoutItem.tokens) ++ .symbol .rparen :: rest) =
          some (items.map id, .symbol .rparen :: rest) :=
      commaList1_reads (fun ts => ts.head? ≠ some (.symbol .assign)) hwf.1 (by omega) (by simp)
        (by simp) (fun item hitem ts hts => layoutItem_reads (hwf.2 item hitem) hts) (by simp)
    have hbetween := between_reads .lparen .rparen hitems
    have hplain : ∀ ts, plainQualifier (.keyword .layout :: ts) = none := fun _ => rfl
    have hprecision : ∀ ts, precision (.keyword .layout :: ts) = none := fun _ => rfl
    simp [Qualifier.tokens, qualifier, hplain, hprecision, hbetween]
  | precision p =>
    have hplain : ∀ ts, plainQualifier (.keyword p.keyword :: ts) = none := by
      intro ts
      cases p <;> rfl
    have hprecision : ∀ ts, precision (.keyword p.keyword :: ts) = some (p, ts) := by
      intro ts
      cases p <;> rfl
    simp [Qualifier.tokens, qualifier, hplain, hprecision]
  | _ => simp [Qualifier.tokens, qualifier, plainQualifier, next_cons]

theorem qualifier_refuses {ts : List Token} (h : ∀ k, ts.head? ≠ some (.keyword k)) :
    qualifier limit ts = none := by
  have hplain : plainQualifier ts = none := by
    refine next_eq_none fun t ht => ?_
    split <;> first | rfl | exact absurd ht (h _)
  have hprecision : precision ts = none := by
    refine next_eq_none fun t ht => ?_
    split <;> first | rfl | exact absurd ht (h _)
  simp [qualifier, hplain, hprecision, keyword_other (h _)]

theorem qualifiers_read {qs : List Qualifier} (hwf : ∀ q ∈ qs, q.WellFormed)
    (hlen : (qs.flatMap Qualifier.tokens).length ≤ limit)
    (hrest : ∀ k, rest.head? ≠ some (.keyword k)) :
    many limit (qualifier limit) (qs.flatMap Qualifier.tokens ++ rest) = some (qs, rest) := by
  have hcount : qs.length ≤ (qs.flatMap Qualifier.tokens).length :=
    length_le_flatMap fun q _ => by cases q <;> simp [Qualifier.tokens]
  have hread : many limit (qualifier limit) (qs.flatMap Qualifier.tokens ++ rest) =
      some (qs.map id, rest) := by
    refine many_reads (fun _ => True) (by omega) (fun _ _ _ => trivial) trivial ?_
      (qualifier_refuses hrest)
    intro q hq ts _
    have hle := length_le_of_mem Qualifier.tokens hq
    exact qualifier_reads (hwf q hq) (by omega)
  simpa using hread

theorem qualifiedType_reads {t : QualifiedType} (hwf : t.WellFormed)
    (hlen : t.tokens.length ≤ limit) :
    qualifiedType limit (t.tokens ++ rest) = some (t, rest) := by
  simp only [QualifiedType.tokens, List.length_append, List.length_cons] at hlen
  have hmany : many limit (qualifier limit)
      (t.qualifiers.flatMap Qualifier.tokens ++ t.base.token :: rest) =
        some (t.qualifiers, t.base.token :: rest) :=
    qualifiers_read hwf (by omega) (by simp [DataType.token])
  simp [QualifiedType.tokens, qualifiedType, hmany, dataType_self]

theorem no_qualifiers (limit : Nat) {ts : List Token} (h : ∀ k, ts.head? ≠ some (.keyword k)) :
    many limit (qualifier limit) ts = some ([], ts) := by
  cases limit <;> simp [many, qualifier_refuses h]

theorem ident_cases (ts : List Token) :
    ident ts = none ∨ ∃ name rest, ts = .ident name :: rest := by
  cases ts with
  | nil => exact .inl rfl
  | cons t ts =>
    cases t with
    | ident name => exact .inr ⟨name, ts, rfl⟩
    | _ => exact .inl rfl

theorem qualifiedType_refuses {ts : List Token} (hkeyword : ∀ k, ts.head? ≠ some (.keyword k))
    (hname : ident ts = none) : qualifiedType limit ts = none := by
  have htype : dataType ts = none := by
    cases ts with
    | nil => rfl
    | cons t ts =>
      cases t with
      | ident name => simp at hname
      | _ => rfl
  simp [qualifiedType, no_qualifiers limit hkeyword, htype]

theorem expr_reads {e : Expr} (hwf : e.WellFormed) (hlen : e.tokens.length < limit)
    (hrest : Ends (BinaryOp.loosest + 3) rest) :
    expr limit (e.tokens ++ rest) = some (e.unnumbered, rest) :=
  (readsExprs_expr limit).reads e hwf hlen rest hrest

theorem optionExpr_reads (limit : Nat) {e : Option Expr} (hwf : ∀ v ∈ e, v.WellFormed)
    (hlen : (tokensOrNone Expr.tokens e).length < limit) (hrest : Ends (BinaryOp.loosest + 3) rest)
    (hnone : NoExpr rest) :
    optional (expr limit) (tokensOrNone Expr.tokens e ++ rest) =
      some (e.map Expr.unnumbered, rest) := by
  cases e with
  | none => simp [tokensOrNone, Reader.optional_apply, (readsExprs_expr limit).refuses rest hnone]
  | some e => simp [tokensOrNone, Reader.optional_apply, expr_reads (hwf e rfl) hlen hrest]

theorem arraySuffix_reads {a : ArraySuffix} (hwf : a.WellFormed) (hlen : a.tokens.length ≤ limit) :
    arraySuffix limit (a.tokens ++ rest) = some (a.unnumbered, rest) := by
  simp only [ArraySuffix.tokens, List.length_cons, List.length_append] at hlen
  have hsize : optional (expr limit) (tokensOrNone Expr.tokens a.size ++ .symbol .rbracket :: rest) =
      some (a.size.map Expr.unnumbered, .symbol .rbracket :: rest) :=
    optionExpr_reads limit hwf (by omega) (ends_cons (by decide)) ⟨rfl, rfl, rfl, rfl⟩
  have hbetween := between_reads .lbracket .rbracket hsize
  simp [ArraySuffix.tokens, arraySuffix, hbetween, ArraySuffix.unnumbered]

theorem optionSuffix_reads (limit : Nat) {a : Option ArraySuffix} (hwf : ∀ v ∈ a, v.WellFormed)
    (hlen : (tokensOrNone ArraySuffix.tokens a).length ≤ limit)
    (hrest : rest.head? ≠ some (.symbol .lbracket)) :
    optional (arraySuffix limit) (tokensOrNone ArraySuffix.tokens a ++ rest) =
      some (a.map ArraySuffix.unnumbered, rest) := by
  cases a with
  | none =>
    simp [tokensOrNone, Reader.optional_apply, arraySuffix, between, symbol_other hrest]
  | some a => simp [tokensOrNone, Reader.optional_apply, arraySuffix_reads (hwf a rfl) hlen]

theorem init_reads (limit : Nat) {e : Option Expr} (hwf : ∀ v ∈ e, v.WellFormed)
    (hlen : (tokensOrNone (fun e => .symbol .assign :: e.tokens) e).length ≤ limit)
    (hrest : Ends (BinaryOp.loosest + 3) rest) :
    (optional (do symbol .assign; expr limit) : Reader (Option Expr))
        (tokensOrNone (fun e => .symbol .assign :: e.tokens) e ++ rest) =
      some (e.map Expr.unnumbered, rest) := by
  cases e with
  | none =>
    have hassign : symbol .assign rest = none := symbol_other (hrest.head_ne (by decide))
    simp [tokensOrNone, Reader.optional_apply, hassign]
  | some e => simp [tokensOrNone, Reader.optional_apply, expr_reads (hwf e rfl) hlen hrest]

theorem declarator_reads {d : Declarator} (hwf : d.WellFormed) (hlen : d.tokens.length ≤ limit)
    (hrest : Ends (BinaryOp.loosest + 3) rest) :
    declarator limit (d.tokens ++ rest) = some (d.unnumbered, rest) := by
  simp only [Declarator.tokens, List.length_cons, List.length_append] at hlen
  have hinit := init_reads limit hwf.2.2 (by omega) hrest
  have hnext : (tokensOrNone (fun e => .symbol .assign :: e.tokens) d.init ++ rest).head? ≠
      some (.symbol .lbracket) := by
    cases d.init with
    | none => exact hrest.head_ne (by decide)
    | some e => simp [tokensOrNone]
  have hsuffix := optionSuffix_reads limit hwf.2.1 (by omega) hnext
  simp [Declarator.tokens, declarator, hsuffix, hinit, Declarator.unnumbered]

theorem variableList_reads {v : Variables} (hwf : v.WellFormed) (hlen : v.tokens.length ≤ limit)
    (rest : List Token) :
    variableList limit (v.tokens ++ rest) = some (v.unnumbered, rest) := by
  simp only [Variables.tokens, List.length_append, List.length_cons] at hlen
  have hcount := length_le_commaTokens Declarator.tokens v.vars
  have hvars : commaList1 limit (declarator limit)
      (commaTokens (v.vars.map Declarator.tokens) ++ .symbol .semi :: rest) =
        some (v.vars.map Declarator.unnumbered, .symbol .semi :: rest) := by
    refine commaList1_reads (Ends (BinaryOp.loosest + 3)) hwf.2.1 (by omega)
      (fun _ => ends_cons (by decide)) (ends_cons (by decide)) ?_ (by simp)
    intro d hd ts hts
    have hle := length_le_commaTokens_of_mem Declarator.tokens hd
    exact declarator_reads (hwf.2.2 d hd) (by omega) hts
  have htype : ∀ ts, qualifiedType limit (v.type.tokens ++ ts) = some (v.type, ts) :=
    fun ts => qualifiedType_reads hwf.1 (by omega)
  simp [Variables.tokens, variableList, htype, hvars, Variables.unnumbered]

theorem expr_starts : ∀ e : Expr, ∃ t, e.tokens.head? = some t ∧ t.startsExpr
  | .literal _ v => ⟨v.token, rfl, by cases v <;> rfl⟩
  | .name _ _ => ⟨_, rfl, rfl⟩
  | .paren _ _ => ⟨_, rfl, rfl⟩
  | .call _ _ _ => ⟨_, rfl, rfl⟩
  | .unary _ op e => by
    by_cases hop : op.isPostfix
    · obtain ⟨t, hhead, ht⟩ := expr_starts e
      exact ⟨t, by simp [Expr.tokens, hop, hhead], ht⟩
    · refine ⟨.symbol op.symbol, by simp [Expr.tokens, hop], ?_⟩
      cases op <;> rfl
  | .binary _ _ b _ | .assign _ _ b _ | .ternary _ b _ _ | .index _ b _ | .member _ b _ => by
    obtain ⟨t, hhead, ht⟩ := expr_starts b
    exact ⟨t, by simp [Expr.tokens, hhead], ht⟩

/-- In an expression no name follows a name, so it cannot be taken for a declaration. -/
theorem ident_apart : ∀ (e : Expr) {name : String} {ts rest : List Token}, ident rest = none →
    e.tokens ++ rest = .ident name :: ts → ident ts = none
  | .literal _ v, _, _, _, _, h => by cases v <;> simp [Expr.tokens, Literal.token] at h
  | .name _ _, _, _, _, hrest, h => by
    obtain ⟨-, rfl⟩ := List.cons.inj h
    exact hrest
  | .paren _ _, _, _, _, _, h => by simp [Expr.tokens] at h
  | .call _ _ _, _, _, _, _, h => by
    obtain ⟨-, rfl⟩ := List.cons.inj h
    rfl
  | .unary _ op e, _, _, _, _, h => by
    by_cases hop : op.isPostfix
    · simp only [Expr.tokens, hop, if_true, List.append_assoc] at h
      exact ident_apart e rfl h
    · simp [Expr.tokens, hop] at h
  | .binary _ _ b _, _, _, _, _, h | .assign _ _ b _, _, _, _, _, h
  | .ternary _ b _ _, _, _, _, _, h | .index _ b _, _, _, _, _, h
  | .member _ b _, _, _, _, _, h => by
    simp only [Expr.tokens, List.append_assoc] at h
    exact ident_apart b rfl h

theorem exprStmt_reads {e : Expr} (hwf : e.WellFormed) (hlen : e.tokens.length < limit)
    (rest : List Token) :
    exprStmt limit (e.tokens ++ .symbol .semi :: rest) =
      some (.expr .unassigned e.unnumbered, rest) := by
  have he : expr limit (e.tokens ++ .symbol .semi :: rest) = _ :=
    expr_reads hwf hlen (ends_cons (by decide))
  simp [exprStmt, he]

theorem declareStmt_refuses (e : Expr) :
    declareStmt limit (e.tokens ++ .symbol .semi :: rest) = none := by
  obtain ⟨t, hhead, hstart⟩ := expr_starts e
  have hkeyword : ∀ k, (e.tokens ++ .symbol .semi :: rest).head? ≠ some (.keyword k) := by
    intro k hk
    obtain rfl : t = .keyword k := by simpa [hhead] using hk
    exact Bool.false_ne_true hstart
  obtain hname | ⟨name, ts, hts⟩ := ident_cases (e.tokens ++ .symbol .semi :: rest)
  · simp [declareStmt, variableList, qualifiedType_refuses hkeyword hname]
  · have hnext := ident_apart e rfl hts
    rw [hts] at hkeyword ⊢
    have hnone := no_qualifiers limit hkeyword
    cases htype : DataType.ofText? name.toList <;>
      simp [declareStmt, variableList, qualifiedType, hnone, dataType, next_cons, htype, commaList1,
        declarator, hnext]

/-- A declaration or an expression, and no other sort of statement. -/
theorem anyStmt_unmarked {r : Reader Stmt} {ts : List Token}
    (h : ∀ t ∈ ts.head?, t.marksStmt = false) :
    anyStmt limit r ts = (declareStmt limit ts).or (exprStmt limit ts) := by
  have hsymbol : ∀ s, (Token.symbol s).marksStmt → symbol s ts = none := by
    intro s hs
    refine symbol_other fun heq => ?_
    rw [h _ heq] at hs
    cases hs
  have hkeyword : ∀ k, (Token.keyword k).marksStmt → keyword k ts = none := by
    intro k hk
    refine keyword_other fun heq => ?_
    rw [h _ heq] at hk
    cases hk
  have hjump : jump ts = none := by
    refine next_eq_none fun t ht => ?_
    have hmark := h t ht
    split <;> first | rfl | cases hmark
  simp [anyStmt, body, between, hsymbol .lbrace rfl, ifStmt, hkeyword .if_ rfl, forStmt,
    hkeyword .for_ rfl, whileStmt, hkeyword .while_ rfl, doStmt, hkeyword .do_ rfl, returnStmt,
    hkeyword .return_ rfl, jumpStmt, hjump, emptyStmt, hsymbol .semi rfl]

theorem declareStmt_semi : declareStmt limit (.symbol .semi :: rest) = none := by
  have htype : qualifiedType limit (.symbol .semi :: rest) = none :=
    qualifiedType_refuses (by simp) rfl
  simp [declareStmt, variableList, htype]

theorem exprStmt_semi : exprStmt limit (.symbol .semi :: rest) = none := by
  have hnone := (readsExprs_expr limit).refuses (.symbol .semi :: rest) ⟨rfl, rfl, rfl, rfl⟩
  simp [exprStmt, hnone]

theorem loopInit_reads {s : Stmt} (hinit : s.IsLoopInit) (hwf : s.WellFormed)
    (hlen : s.tokens.length ≤ limit) (rest : List Token) :
    loopInit limit (s.tokens ++ rest) = some (s.unnumbered, rest) := by
  cases s with
  | declare id vars =>
    have hvars := variableList_reads hwf hlen rest
    simp [loopInit, declareStmt, Stmt.tokens, hvars, Stmt.unnumbered]
  | expr id e =>
    simp only [Stmt.tokens, List.length_append, List.length_cons] at hlen
    have he := exprStmt_reads hwf (by omega : e.tokens.length < limit) rest
    simp [loopInit, Stmt.tokens, declareStmt_refuses, he, Stmt.unnumbered]
  | empty id =>
    simp [loopInit, Stmt.tokens, declareStmt_semi, exprStmt_semi, emptyStmt, Stmt.unnumbered]
  | _ => exact hinit.elim

/-- The reader takes the tokens of well-formed statements of fewer than `n` of them. -/
structure ReadsStmts (n : Nat) (r : Reader Stmt) : Prop where
  reads : ∀ s : Stmt, s.WellFormed → s.tokens.length < n → ∀ rest,
    (s.Open → rest.head? ≠ some (.keyword .else_)) → r (s.tokens ++ rest) = some (s.unnumbered, rest)
  refuses : ∀ ts, r (.symbol .rbrace :: ts) = none

theorem condition_reads {e : Expr} (hwf : e.WellFormed) (hlen : e.tokens.length < limit)
    (rest : List Token) :
    condition limit (.symbol .lparen :: (e.tokens ++ .symbol .rparen :: rest)) =
      some (e.unnumbered, rest) :=
  between_reads .lparen .rparen (expr_reads hwf hlen (ends_cons (by decide)))

theorem qualifier_starts (q : Qualifier) : ∃ t, q.tokens.head? = some t ∧ t.startsType := by
  cases q with
  | precision p => exact ⟨.keyword p.keyword, rfl, by cases p <;> rfl⟩
  | _ => exact ⟨_, rfl, rfl⟩

def TypeStart (ts : List Token) : Prop := ∃ t, ts.head? = some t ∧ t.startsType

theorem qualifiers_start {qs : List Qualifier} (hne : qs ≠ []) (ts : List Token) :
    TypeStart (qs.flatMap Qualifier.tokens ++ ts) := by
  obtain ⟨q, qs, rfl⟩ := List.exists_cons_of_ne_nil hne
  obtain ⟨t, hhead, ht⟩ := qualifier_starts q
  exact ⟨t, by simp [hhead], ht⟩

theorem type_starts (type : QualifiedType) (ts : List Token) : TypeStart (type.tokens ++ ts) := by
  by_cases hne : type.qualifiers = []
  · exact ⟨type.base.token, by simp [QualifiedType.tokens, hne], rfl⟩
  · simpa [QualifiedType.tokens] using qualifiers_start hne (type.base.token :: ts)

theorem marksStmt_of_startsType {t : Token} (h : t.startsType) : t.marksStmt = false := by
  cases t with
  | keyword k => cases k <;> first | rfl | cases h
  | ident name => rfl
  | _ => cases h

theorem stmt_ne_else (s : Stmt) (ts : List Token) :
    (s.tokens ++ ts).head? ≠ some (.keyword .else_) := by
  cases s with
  | declare id vars =>
    obtain ⟨t, hhead, hstart⟩ := type_starts vars.type
      (commaTokens (vars.vars.map Declarator.tokens) ++ .symbol .semi :: ts)
    intro h
    obtain rfl : t = .keyword .else_ := by simpa [Stmt.tokens, Variables.tokens, hhead] using h
    exact Bool.false_ne_true hstart
  | expr id e =>
    obtain ⟨t, hhead, hstart⟩ := expr_starts e
    intro h
    obtain rfl : t = .keyword .else_ := by simpa [Stmt.tokens, hhead] using h
    exact Bool.false_ne_true hstart
  | jump id k => cases k <;> simp [Stmt.tokens, Jump.keyword]
  | _ => simp [Stmt.tokens]

theorem tokensOfBody_eq (list : List Stmt) : Stmt.tokensOfBody list = list.flatMap Stmt.tokens := by
  induction list with
  | nil => rfl
  | cons s list ih => simp [Stmt.tokensOfBody, ih]

theorem stmt_tokens_ne (s : Stmt) : s.tokens ≠ [] := by
  cases s with
  | declare id vars => simp [Stmt.tokens, Variables.tokens]
  | _ => simp [Stmt.tokens]

theorem marksStmt_of_startsExpr {t : Token} (h : t.startsExpr) : t.marksStmt = false := by
  cases t with
  | symbol s => cases s <;> first | rfl | cases h
  | keyword k => cases h
  | _ => rfl

theorem body_reads {n : Nat} {r : Reader Stmt} (hr : ReadsStmts n r) (hn : n ≤ limit)
    {list : List Stmt} (hwf : Stmt.WellFormedBody list)
    (hlen : (Stmt.tokensOfBody list).length < n) (rest : List Token) :
    body limit r (.symbol .lbrace :: (Stmt.tokensOfBody list ++ .symbol .rbrace :: rest)) =
      some (Stmt.unnumberedBody list, rest) := by
  rw [tokensOfBody_eq] at hlen ⊢
  rw [Stmt.unnumberedBody_eq]
  rw [wellFormedBody_iff] at hwf
  have hcount : list.length ≤ (list.flatMap Stmt.tokens).length :=
    length_le_flatMap fun s _ => stmt_tokens_ne s
  have hmany : many limit r (list.flatMap Stmt.tokens ++ .symbol .rbrace :: rest) =
      some (list.map Stmt.unnumbered, .symbol .rbrace :: rest) := by
    refine many_reads (fun ts => ts.head? ≠ some (.keyword .else_)) (by omega)
      (fun s _ ts => stmt_ne_else s ts) (by simp) ?_ (hr.refuses rest)
    intro s hs ts hts
    have hle := length_le_of_mem Stmt.tokens hs
    exact hr.reads s (hwf s hs) (by omega) ts fun _ => hts
  exact between_reads .lbrace .rbrace hmany

section

variable {r : Reader Stmt} {id : NodeId}

theorem ifThen_reads (hr : ReadsStmts limit r) {c : Expr} {y : Stmt}
    (hwf : (Stmt.ifThen id c y).WellFormed) (hlen : (Stmt.ifThen id c y).tokens.length ≤ limit)
    (hrest : rest.head? ≠ some (.keyword .else_)) :
    ifStmt limit r ((Stmt.ifThen id c y).tokens ++ rest) =
      some ((Stmt.ifThen id c y).unnumbered, rest) := by
  simp only [Stmt.tokens, List.length_append, List.length_cons] at hlen
  have hcond := condition_reads hwf.1 (by omega : c.tokens.length < limit) (y.tokens ++ rest)
  have hyes := hr.reads y hwf.2 (by omega) rest fun _ => hrest
  simp [ifStmt, Stmt.tokens, hcond, hyes, Reader.optional_apply, keyword_other hrest,
    Stmt.unnumbered]

theorem ifElse_reads (hr : ReadsStmts limit r) {c : Expr} {y n : Stmt}
    (hwf : (Stmt.ifElse id c y n).WellFormed) (hlen : (Stmt.ifElse id c y n).tokens.length ≤ limit)
    (hrest : n.Open → rest.head? ≠ some (.keyword .else_)) :
    ifStmt limit r ((Stmt.ifElse id c y n).tokens ++ rest) =
      some ((Stmt.ifElse id c y n).unnumbered, rest) := by
  simp only [Stmt.tokens, List.length_append, List.length_cons] at hlen
  have hcond := condition_reads hwf.1 (by omega : c.tokens.length < limit)
    (y.tokens ++ .keyword .else_ :: (n.tokens ++ rest))
  have hyes := hr.reads y hwf.2.1 (by omega) (.keyword .else_ :: (n.tokens ++ rest))
    fun hopen => absurd hopen hwf.2.2.2
  have hno := hr.reads n hwf.2.2.1 (by omega) rest hrest
  simp [ifStmt, Stmt.tokens, hcond, hyes, hno, Reader.optional_apply, Stmt.unnumbered]

theorem forStmt_reads (hr : ReadsStmts limit r) {init body : Stmt} {c step : Option Expr}
    (hwf : (Stmt.forLoop id init c step body).WellFormed)
    (hlen : (Stmt.forLoop id init c step body).tokens.length ≤ limit)
    (hrest : body.Open → rest.head? ≠ some (.keyword .else_)) :
    forStmt limit r ((Stmt.forLoop id init c step body).tokens ++ rest) =
      some ((Stmt.forLoop id init c step body).unnumbered, rest) := by
  obtain ⟨hinit, hloop, hc, hstep, hbody⟩ := hwf
  simp only [Stmt.tokens, List.length_append, List.length_cons] at hlen
  have hfirst := loopInit_reads hloop hinit (by omega : init.tokens.length ≤ limit)
  have hcond : ∀ ts, optional (expr limit)
      (tokensOrNone Expr.tokens c ++ .symbol .semi :: ts) = _ := fun ts =>
    optionExpr_reads limit hc (by omega) (ends_cons (by decide)) ⟨rfl, rfl, rfl, rfl⟩
  have hlast : ∀ ts, optional (expr limit)
      (tokensOrNone Expr.tokens step ++ .symbol .rparen :: ts) = _ := fun ts =>
    optionExpr_reads limit hstep (by omega) (ends_cons (by decide)) ⟨rfl, rfl, rfl, rfl⟩
  have hinner := hr.reads body hbody (by omega) rest hrest
  simp [forStmt, Stmt.tokens, hfirst, hcond, hlast, hinner, Stmt.unnumbered]

theorem whileStmt_reads (hr : ReadsStmts limit r) {c : Expr} {body : Stmt}
    (hwf : (Stmt.whileLoop id c body).WellFormed)
    (hlen : (Stmt.whileLoop id c body).tokens.length ≤ limit)
    (hrest : body.Open → rest.head? ≠ some (.keyword .else_)) :
    whileStmt limit r ((Stmt.whileLoop id c body).tokens ++ rest) =
      some ((Stmt.whileLoop id c body).unnumbered, rest) := by
  simp only [Stmt.tokens, List.length_append, List.length_cons] at hlen
  have hcond := condition_reads hwf.1 (by omega : c.tokens.length < limit) (body.tokens ++ rest)
  have hbody := hr.reads body hwf.2 (by omega) rest hrest
  simp [whileStmt, Stmt.tokens, hcond, hbody, Stmt.unnumbered]

theorem doStmt_reads (hr : ReadsStmts limit r) {body : Stmt} {c : Expr}
    (hwf : (Stmt.doWhile id body c).WellFormed)
    (hlen : (Stmt.doWhile id body c).tokens.length ≤ limit) :
    doStmt limit r ((Stmt.doWhile id body c).tokens ++ rest) =
      some ((Stmt.doWhile id body c).unnumbered, rest) := by
  simp only [Stmt.tokens, List.length_append, List.length_cons] at hlen
  have hcond := condition_reads hwf.2 (by omega : c.tokens.length < limit) (.symbol .semi :: rest)
  have hbody := hr.reads body hwf.1 (by omega) (.keyword .while_ :: .symbol .lparen ::
    (c.tokens ++ .symbol .rparen :: .symbol .semi :: rest)) (by simp)
  simp [doStmt, Stmt.tokens, hcond, hbody, Stmt.unnumbered]

theorem returnStmt_reads {e : Option Expr} (hwf : (Stmt.ret id e).WellFormed)
    (hlen : (Stmt.ret id e).tokens.length ≤ limit) :
    returnStmt limit ((Stmt.ret id e).tokens ++ rest) = some ((Stmt.ret id e).unnumbered, rest) := by
  simp only [Stmt.tokens, List.length_append, List.length_cons] at hlen
  have hvalue : optional (expr limit)
      (tokensOrNone Expr.tokens e ++ .symbol .semi :: rest) = _ :=
    optionExpr_reads limit hwf (by omega) (ends_cons (by decide)) ⟨rfl, rfl, rfl, rfl⟩
  simp [returnStmt, Stmt.tokens, hvalue, Stmt.unnumbered]

theorem jumpStmt_reads (k : Jump) :
    jumpStmt ((Stmt.jump id k).tokens ++ rest) = some ((Stmt.jump id k).unnumbered, rest) := by
  have hjump : ∀ ts, jump (.keyword k.keyword :: ts) = some (k, ts) := by
    intro ts
    cases k <;> rfl
  simp [jumpStmt, Stmt.tokens, hjump, Stmt.unnumbered]

theorem anyStmt_reads (hr : ReadsStmts limit r) {s : Stmt} (hwf : s.WellFormed)
    (hlen : s.tokens.length ≤ limit) (hrest : s.Open → rest.head? ≠ some (.keyword .else_)) :
    anyStmt limit r (s.tokens ++ rest) = some (s.unnumbered, rest) := by
  cases s with
  | block id list =>
    simp only [Stmt.tokens, List.length_cons, List.length_append] at hlen
    have hbody := body_reads hr (Nat.le_refl _) hwf (by omega) rest
    refine Reader.orElse_left ?_
    simp [Stmt.tokens, hbody, Stmt.unnumbered]
  | declare id vars =>
    have hvars := variableList_reads hwf hlen rest
    have hplain : ∀ t ∈ (vars.tokens ++ rest).head?, t.marksStmt = false := by
      obtain ⟨t, hhead, hstart⟩ := type_starts vars.type
        (commaTokens (vars.vars.map Declarator.tokens) ++ .symbol .semi :: rest)
      intro x hx
      obtain rfl : t = x := by simpa [Variables.tokens, hhead] using hx
      exact marksStmt_of_startsType hstart
    rw [Stmt.tokens, anyStmt_unmarked hplain]
    simp [declareStmt, hvars, Stmt.unnumbered]
  | expr id e =>
    simp only [Stmt.tokens, List.length_append, List.length_cons] at hlen
    have he := exprStmt_reads hwf (by omega : e.tokens.length < limit) rest
    have hplain : ∀ t ∈ (e.tokens ++ .symbol .semi :: rest).head?, t.marksStmt = false := by
      obtain ⟨t, hhead, hstart⟩ := expr_starts e
      intro x hx
      obtain rfl : t = x := by simpa [hhead] using hx
      exact marksStmt_of_startsExpr hstart
    have htokens : (Stmt.expr id e).tokens ++ rest = e.tokens ++ .symbol .semi :: rest := by
      simp [Stmt.tokens]
    rw [htokens, anyStmt_unmarked hplain, declareStmt_refuses, Option.none_or, he, Stmt.unnumbered]
  | ifThen id c y =>
    have hif := ifThen_reads hr hwf hlen (hrest trivial)
    exact (Reader.orElse_right rfl).trans (Reader.orElse_left hif)
  | ifElse id c y n =>
    have hif := ifElse_reads hr hwf hlen hrest
    exact (Reader.orElse_right rfl).trans (Reader.orElse_left hif)
  | forLoop id init c step body =>
    have hfor := forStmt_reads hr hwf hlen hrest
    exact (Reader.orElse_right rfl).trans <| (Reader.orElse_right rfl).trans (Reader.orElse_left hfor)
  | whileLoop id c body =>
    have hwhile := whileStmt_reads hr hwf hlen hrest
    exact (Reader.orElse_right rfl).trans <| (Reader.orElse_right rfl).trans <|
      (Reader.orElse_right rfl).trans (Reader.orElse_left hwhile)
  | doWhile id body c =>
    have hdo : doStmt limit r _ = some (_, rest) := doStmt_reads hr hwf hlen
    exact (Reader.orElse_right rfl).trans <| (Reader.orElse_right rfl).trans <|
      (Reader.orElse_right rfl).trans <| (Reader.orElse_right rfl).trans (Reader.orElse_left hdo)
  | ret id e =>
    have hreturn : returnStmt limit _ = some (_, rest) := returnStmt_reads hwf hlen
    exact (Reader.orElse_right rfl).trans <| (Reader.orElse_right rfl).trans <|
      (Reader.orElse_right rfl).trans <| (Reader.orElse_right rfl).trans <|
      (Reader.orElse_right rfl).trans (Reader.orElse_left hreturn)
  | jump id k =>
    have hjump : jumpStmt _ = some ((Stmt.jump id k).unnumbered, rest) := jumpStmt_reads k
    cases k <;> exact (Reader.orElse_right rfl).trans <| (Reader.orElse_right rfl).trans <|
      (Reader.orElse_right rfl).trans <| (Reader.orElse_right rfl).trans <|
      (Reader.orElse_right rfl).trans <| (Reader.orElse_right rfl).trans (Reader.orElse_left hjump)
  | empty id =>
    exact (Reader.orElse_right rfl).trans <| (Reader.orElse_right rfl).trans <|
      (Reader.orElse_right rfl).trans <| (Reader.orElse_right rfl).trans <|
      (Reader.orElse_right rfl).trans <| (Reader.orElse_right rfl).trans <|
      (Reader.orElse_right rfl).trans (Reader.orElse_left rfl)

end

theorem readsStmts_stmt (limit : Nat) : ReadsStmts limit (stmt limit) := by
  induction limit with
  | zero => exact ⟨fun s _ hlen => absurd hlen (by omega), fun _ => rfl⟩
  | succ limit ih =>
    refine ⟨fun s hwf hlen rest hrest => anyStmt_reads ih hwf (Nat.le_of_lt_succ hlen) hrest, ?_⟩
    intro ts
    have htype : qualifiedType limit (.symbol .rbrace :: ts) = none :=
      qualifiedType_refuses (by simp) rfl
    have hexpr := (readsExprs_expr limit).refuses (.symbol .rbrace :: ts) ⟨rfl, rfl, rfl, rfl⟩
    rw [stmt, anyStmt_unmarked (by simp [Token.marksStmt])]
    simp [declareStmt, variableList, htype, exprStmt, hexpr]

theorem param_reads {p : Param} (hwf : p.WellFormed) (hlen : p.tokens.length ≤ limit)
    (hname : ident rest = none) (hrest : Ends (BinaryOp.loosest + 3) rest) :
    param limit (p.tokens ++ rest) = some (p.unnumbered, rest) := by
  simp only [Param.tokens, List.length_append] at hlen
  have htype : ∀ ts, qualifiedType limit (p.type.tokens ++ ts) = some (p.type, ts) :=
    fun ts => qualifiedType_reads hwf.1 (by omega)
  have hsuffix := optionSuffix_reads limit hwf.2.2 (by omega) (hrest.head_ne (by decide))
  have hident : optional ident (tokensOrNone (fun n => [.ident n]) p.name ++
      (tokensOrNone ArraySuffix.tokens p.array ++ rest)) =
        some (p.name, tokensOrNone ArraySuffix.tokens p.array ++ rest) := by
    cases p.name with
    | some name => simp [tokensOrNone, Reader.optional_apply]
    | none =>
      cases p.array with
      | none => simp [tokensOrNone, Reader.optional_apply, hname]
      | some a =>
        have hbracket : ∀ ts, ident (.symbol .lbracket :: ts) = none := fun _ => rfl
        simp [tokensOrNone, ArraySuffix.tokens, Reader.optional_apply, hbracket]
  simp [Param.tokens, param, htype, hident, hsuffix, Param.unnumbered]

theorem withoutVoid_unnumbered {params : List Param}
    (h : params ≠ [⟨⟨[], .void⟩, none, none⟩]) :
    withoutVoid (params.map Param.unnumbered) = params.map Param.unnumbered := by
  unfold withoutVoid
  split
  · next heq =>
    obtain ⟨p, rfl, hp⟩ := List.map_eq_singleton_iff.1 heq
    obtain ⟨type, name, array⟩ := p
    simp only [Param.unnumbered, Param.mk.injEq, Option.map_eq_none_iff] at hp
    obtain ⟨rfl, rfl, rfl⟩ := hp
    exact absurd rfl h
  · rfl

theorem functionBody_reads {b : Option (List Stmt)} (hwf : ∀ list ∈ b, Stmt.WellFormedBody list)
    (hlen : (Function.bodyTokens b).length ≤ limit) :
    functionBody limit (Function.bodyTokens b ++ rest) = some (b.map Stmt.unnumberedBody, rest) := by
  cases b with
  | none => simp [Function.bodyTokens, functionBody, body, between]
  | some list =>
    simp only [Function.bodyTokens, List.length_cons, List.length_append] at hlen
    have hbody := body_reads (readsStmts_stmt limit) (Nat.le_refl _) (hwf list rfl) (by omega) rest
    simp [Function.bodyTokens, functionBody, hbody]

theorem function_reads {f : Function} (hwf : f.WellFormed) (hlen : f.tokens.length ≤ limit) :
    function limit (f.tokens ++ rest) = some (.function .unassigned f.unnumbered, rest) := by
  simp only [Function.tokens, List.length_append, List.length_cons] at hlen
  have htype : ∀ ts, qualifiedType limit (f.returns.tokens ++ ts) = some (f.returns, ts) :=
    fun ts => qualifiedType_reads hwf.1 (by omega)
  have hcount := length_le_commaTokens Param.tokens f.params
  have hparams : ∀ ts, commaList limit (param limit)
      (commaTokens (f.params.map Param.tokens) ++ .symbol .rparen :: ts) =
        some (f.params.map Param.unnumbered, .symbol .rparen :: ts) := by
    intro ts
    refine commaList_reads (fun ts => ident ts = none ∧ Ends (BinaryOp.loosest + 3) ts) (by omega)
      (fun _ => ⟨rfl, ends_cons (by decide)⟩) ⟨rfl, ends_cons (by decide)⟩ ?_ ?_ (by simp)
    · intro p hp ts hts
      have hle := length_le_commaTokens_of_mem Param.tokens hp
      exact param_reads (hwf.2.2.1 p hp) (by omega) hts.1 hts.2
    · have hnone : qualifiedType limit (.symbol .rparen :: ts) = none :=
        qualifiedType_refuses (by simp) rfl
      simp [param, hnone]
  have hbetween := fun ts => between_reads .lparen .rparen (hparams ts)
  have hbody : functionBody limit (Function.bodyTokens f.body ++ rest) = _ :=
    functionBody_reads hwf.2.2.2.2 (by omega)
  simp [Function.tokens, function, htype, hbetween, hbody, withoutVoid_unnumbered hwf.2.2.2.1,
    Function.unnumbered]

theorem blockMember_reads {m : BlockMember} (hwf : m.WellFormed) (hlen : m.tokens.length ≤ limit) :
    blockMember limit (m.tokens ++ rest) = some (m.unnumbered, rest) := by
  simp only [BlockMember.tokens, List.length_append, List.length_cons] at hlen
  have htype : ∀ ts, qualifiedType limit (m.type.tokens ++ ts) = some (m.type, ts) :=
    fun ts => qualifiedType_reads hwf.1 (by omega)
  have hsuffix : optional (arraySuffix limit)
      (tokensOrNone ArraySuffix.tokens m.array ++ .symbol .semi :: rest) = _ :=
    optionSuffix_reads limit hwf.2.2 (by omega) (by simp)
  simp [BlockMember.tokens, blockMember, htype, hsuffix, BlockMember.unnumbered]

theorem qualifiers1_read {qs : List Qualifier} (hne : qs ≠ []) (hwf : ∀ q ∈ qs, q.WellFormed)
    (hlen : (qs.flatMap Qualifier.tokens).length ≤ limit)
    (hrest : ∀ k, rest.head? ≠ some (.keyword k)) :
    many1 limit (qualifier limit) (qs.flatMap Qualifier.tokens ++ rest) = some (qs, rest) := by
  obtain ⟨q, qs, rfl⟩ := List.exists_cons_of_ne_nil hne
  simp only [List.flatMap_cons, List.length_append] at hlen
  have hfirst : ∀ ts, qualifier limit (q.tokens ++ ts) = some (q, ts) :=
    fun ts => qualifier_reads (hwf q List.mem_cons_self) (by omega)
  have hmore : many limit (qualifier limit) (qs.flatMap Qualifier.tokens ++ rest) = _ :=
    qualifiers_read (fun p hp => hwf p (List.mem_cons_of_mem _ hp)) (by omega) hrest
  simp [many1, hfirst, hmore]

theorem interfaceBlock_reads {b : InterfaceBlock} (hwf : b.WellFormed)
    (hlen : b.tokens.length ≤ limit) :
    interfaceBlock limit (b.tokens ++ rest) = some
      (.interfaceBlock .unassigned { b with members := b.members.map BlockMember.unnumbered }, rest) := by
  obtain ⟨hne, hqs, -, hmembers, -⟩ := hwf
  simp only [InterfaceBlock.tokens, List.length_append, List.length_cons] at hlen
  have hqualifiers : ∀ ts, many1 limit (qualifier limit)
      (b.qualifiers.flatMap Qualifier.tokens ++ .ident b.name :: ts) =
        some (b.qualifiers, .ident b.name :: ts) :=
    fun ts => qualifiers1_read hne hqs (by omega) (by simp)
  have hcount : b.members.length ≤ (b.members.flatMap BlockMember.tokens).length :=
    length_le_flatMap fun m _ => by simp [BlockMember.tokens]
  have hlist : ∀ ts, many limit (blockMember limit)
      (b.members.flatMap BlockMember.tokens ++ .symbol .rbrace :: ts) =
        some (b.members.map BlockMember.unnumbered, .symbol .rbrace :: ts) := by
    intro ts
    refine many_reads (fun _ => True) (by omega) (fun _ _ _ => trivial) trivial ?_ ?_
    · intro m hm ts _
      have hle := length_le_of_mem BlockMember.tokens hm
      exact blockMember_reads (hmembers m hm) (by omega)
    · have hnone : qualifiedType limit (.symbol .rbrace :: ts) = none :=
        qualifiedType_refuses (by simp) rfl
      simp [blockMember, hnone]
  have hbetween := fun ts => between_reads .lbrace .rbrace (hlist ts)
  have hinstance : optional ident
      (tokensOrNone (fun n => [.ident n]) b.instanceName ++ .symbol .semi :: rest) =
        some (b.instanceName, .symbol .semi :: rest) := by
    have hsemi : ident (.symbol .semi :: rest) = none := rfl
    cases b.instanceName <;> simp [tokensOrNone, Reader.optional_apply, hsemi]
  simp [InterfaceBlock.tokens, interfaceBlock, hqualifiers, hbetween, hinstance]

theorem function_block {b : InterfaceBlock} (hwf : b.WellFormed) (hlen : b.tokens.length ≤ limit) :
    function limit (b.tokens ++ rest) = none := by
  simp only [InterfaceBlock.tokens, List.length_append] at hlen
  have hmany : ∀ ts, many limit (qualifier limit)
      (b.qualifiers.flatMap Qualifier.tokens ++ .ident b.name :: ts) =
        some (b.qualifiers, .ident b.name :: ts) :=
    fun ts => qualifiers_read hwf.2.1 (by omega) (by simp)
  have hname : ∀ ts, ident (.symbol .lbrace :: ts) = none := fun _ => rfl
  cases htype : DataType.ofText? b.name.toList <;>
    simp [InterfaceBlock.tokens, function, qualifiedType, hmany, dataType, next_cons, htype, hname]

theorem variables_tokens {v : Variables} (hwf : v.WellFormed) (rest : List Token) :
    ∃ name ts, v.tokens ++ rest = v.type.tokens ++ .ident name :: ts ∧
      ts.head? ≠ some (.symbol .lparen) := by
  obtain ⟨d, ds, hvars⟩ := List.exists_cons_of_ne_nil hwf.2.1
  refine ⟨d.name, tokensOrNone ArraySuffix.tokens d.array ++
    (tokensOrNone (fun e => .symbol .assign :: e.tokens) d.init ++
      ((ds.map Declarator.tokens).flatMap (.symbol .comma :: ·) ++ .symbol .semi :: rest)),
    by simp [Variables.tokens, hvars, commaTokens, Declarator.tokens], ?_⟩
  cases d.array with
  | some a => simp [tokensOrNone, ArraySuffix.tokens]
  | none =>
    cases d.init with
    | some e => simp [tokensOrNone]
    | none => cases ds <;> simp [tokensOrNone]

theorem function_variables {v : Variables} (hwf : v.WellFormed) (hlen : v.tokens.length ≤ limit) :
    function limit (v.tokens ++ rest) = none := by
  obtain ⟨name, ts, htokens, hnext⟩ := variables_tokens hwf rest
  simp only [Variables.tokens, List.length_append] at hlen
  have htype : ∀ ts, qualifiedType limit (v.type.tokens ++ ts) = some (v.type, ts) :=
    fun ts => qualifiedType_reads hwf.1 (by omega)
  simp [htokens, function, htype, between, symbol_other hnext]

theorem interfaceBlock_variables {v : Variables} (hwf : v.WellFormed)
    (hlen : v.tokens.length ≤ limit) : interfaceBlock limit (v.tokens ++ rest) = none := by
  obtain ⟨name, ts, htokens, -⟩ := variables_tokens hwf rest
  simp only [Variables.tokens, QualifiedType.tokens, List.length_append] at hlen
  by_cases hne : v.type.qualifiers = []
  · have hnone : ∀ ts, qualifier limit (v.type.base.token :: ts) = none :=
      fun ts => qualifier_refuses (by simp [DataType.token])
    simp [htokens, QualifiedType.tokens, hne, interfaceBlock, many1, hnone]
  · have hqualifiers : ∀ ts, many1 limit (qualifier limit)
        (v.type.qualifiers.flatMap Qualifier.tokens ++ v.type.base.token :: ts) =
          some (v.type.qualifiers, v.type.base.token :: ts) :=
      fun ts => qualifiers1_read hne hwf.1 (by omega) (by simp [DataType.token])
    have hname : ∀ ts, ident (v.type.base.token :: ts) = some (String.ofList v.type.base.text, ts) :=
      fun _ => rfl
    simp [htokens, QualifiedType.tokens, interfaceBlock, hqualifiers, hname, between]

theorem declaration_typed {ts : List Token} (h : TypeStart ts) :
    declaration limit ts = (function limit <|> interfaceBlock limit <|>
      (return .globals .unassigned (← variableList limit)) <|> qualifiersDecl limit : Reader _) ts := by
  obtain ⟨t, hhead, hstart⟩ := h
  have hdirective : directive ts = none := by
    refine next_eq_none fun x hx => ?_
    obtain rfl : t = x := by simpa [hhead] using hx
    split
    · cases hstart
    · rfl
  have hprecision : keyword .precision ts = none := by
    refine keyword_other fun heq => ?_
    obtain rfl : t = .keyword .precision := by simpa [hhead] using heq
    cases hstart
  simp [declaration, hdirective, precisionDecl, hprecision]

theorem declaration_reads {d : Declaration} (hwf : d.WellFormed) (hlen : d.tokens.length ≤ limit) :
    declaration limit (d.tokens ++ rest) = some (d.unnumbered, rest) := by
  cases d with
  | directive id text =>
    simp [Declaration.tokens, declaration, directive, next_cons, Declaration.unnumbered]
  | precision id p t =>
    have hdirective : ∀ ts, directive (.keyword .precision :: ts) = none := fun _ => rfl
    have hprecision : ∀ ts, Grammar.precision (.keyword p.keyword :: ts) = some (p, ts) := by
      intro ts
      cases p <;> rfl
    simp [Declaration.tokens, declaration, hdirective, precisionDecl, hprecision, dataType_self,
      Declaration.unnumbered]
  | globals id vars =>
    have hstart : TypeStart (vars.tokens ++ rest) := by
      simp only [Variables.tokens, List.append_assoc]
      exact type_starts _ _
    have hvars := variableList_reads hwf hlen rest
    rw [Declaration.tokens, declaration_typed hstart]
    simp [function_variables hwf hlen, interfaceBlock_variables hwf hlen, hvars,
      Declaration.unnumbered]
  | interfaceBlock id b =>
    have hstart : TypeStart (b.tokens ++ rest) := by
      simp only [InterfaceBlock.tokens, List.append_assoc]
      exact qualifiers_start hwf.1 _
    rw [Declaration.tokens, declaration_typed hstart]
    simp [function_block hwf hlen, interfaceBlock_reads hwf hlen, Declaration.unnumbered]
  | qualifiers id list =>
    have hstart : TypeStart ((Declaration.qualifiers id list).tokens ++ rest) := by
      simp only [Declaration.tokens, List.append_assoc]
      exact qualifiers_start hwf.1 _
    rw [declaration_typed hstart]
    simp only [Declaration.tokens, List.length_append] at hlen
    have hmany : many limit (qualifier limit)
        (list.flatMap Qualifier.tokens ++ .symbol .semi :: rest) = _ :=
      qualifiers_read hwf.2 (by omega) (by simp)
    have hmany1 : many1 limit (qualifier limit)
        (list.flatMap Qualifier.tokens ++ .symbol .semi :: rest) = _ :=
      qualifiers1_read hwf.1 hwf.2 (by omega) (by simp)
    have htype : dataType (.symbol .semi :: rest) = none := rfl
    have hname : ident (.symbol .semi :: rest) = none := rfl
    simp [Declaration.tokens, function, qualifiedType, hmany, htype, interfaceBlock, hmany1, hname,
      variableList, qualifiersDecl, Declaration.unnumbered]
  | function id f =>
    have hstart : TypeStart (f.tokens ++ rest) := by
      simp only [Function.tokens, List.append_assoc]
      exact type_starts _ _
    rw [Declaration.tokens, declaration_typed hstart]
    simp [function_reads hwf hlen, Declaration.unnumbered]

theorem declaration_nil : declaration limit [] = none := by
  have htype : qualifiedType limit [] = none := qualifiedType_refuses (by simp) rfl
  have hqualifier : qualifier limit [] = none := qualifier_refuses (by simp)
  have hdirective : directive [] = none := rfl
  have hprecision : keyword .precision [] = none := rfl
  simp [declaration, hdirective, precisionDecl, hprecision, function, htype, interfaceBlock, many1,
    hqualifier, variableList, qualifiersDecl]

end

end Grammar

theorem Declaration.tokens_ne (d : Declaration) : d.tokens ≠ [] := by
  cases d <;>
    simp [tokens, Variables.tokens, InterfaceBlock.tokens, Function.tokens]

/-- The tokens of a well-formed shader spell the shader, up to the identities of its nodes. -/
theorem Shader.ofTokens?_tokens {s : Shader} (hwf : s.WellFormed) :
    ofTokens? s.tokens = some s.unnumbered := by
  have hcount : s.declarations.length ≤ s.tokens.length :=
    Grammar.length_le_flatMap fun d _ => d.tokens_ne
  have hread : Grammar.many (s.tokens.length + 1) (Grammar.declaration (s.tokens.length + 1))
      (s.tokens ++ []) = some (s.declarations.map Declaration.unnumbered, []) := by
    refine Grammar.many_reads (fun _ => True) (by omega) (fun _ _ _ => trivial) trivial ?_ ?_
    · intro d hd ts _
      have hle := Grammar.length_le_of_mem Declaration.tokens hd
      exact Grammar.declaration_reads (hwf d hd) (Nat.le_succ_of_le hle)
    · exact Grammar.declaration_nil
  rw [List.append_nil] at hread
  simp [ofTokens?, hread, unnumbered]

end ShaderLift
