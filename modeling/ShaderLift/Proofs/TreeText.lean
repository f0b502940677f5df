import Mathlib
import ShaderLift.Proofs.Lexing
import ShaderLift.Proofs.RereadTrees

/-!
The text of a well-formed tree is cut into the tokens of the tree that is read from it, unless it has
a member of a whole number. For a printable tree these are its own tokens.
-/

namespace ShaderLift

open Lexer

namespace Lexer

theorem Spells.closed {s : Symbol} {rest : List Char} {ts : List Token} (hs : s ∈ Lexer.closed)
    (h : Spells rest ts) : Spells (s.text ++ rest) (.symbol s :: ts) :=
  h.symbol s fun c _ => merges_closed hs c

theorem Spells.operator (s : Symbol) {rest : List Char} {ts : List Token} (h : Spells rest ts) :
    Spells (' ' :: (s.text ++ ' ' :: rest)) (.symbol s :: ts) := by
  refine Spells.space (by decide) (Spells.symbol s ?_ (Spells.space (by decide) h))
  rintro _ ⟨⟩
  cases s <;> decide

end Lexer

theorem UnaryOp.eq_not_or_bitNot {op : UnaryOp} (hpost : op.isPostfix = false)
    (hsign : op.isSign = false) : op = .not ∨ op = .bitNot := by
  cases op <;> simp_all [isSign, isPostfix]

theorem UnaryOp.symbol_text (op : UnaryOp) : op.symbol.text = op.text := by cases op <;> rfl

theorem BinaryOp.symbol_text (op : BinaryOp) : op.symbol.text = op.text := by cases op <;> rfl

theorem AssignOp.symbol_text (op : AssignOp) : op.symbol.text = op.text := by cases op <;> rfl

theorem Precision.keyword_text (p : Precision) : p.keyword.text = p.text := by cases p <;> rfl

namespace Expr

/-- What comes after the text of the expression does not run into it. -/
def EndsBefore (e : Expr) (rest : List Char) : Prop :=
  Stops isIdentChar rest ∧
    (rest.head? = some '.' → e.level = 0 ∧ ∀ id v, e ≠ .literal id (.int v))

theorem endsBefore_cons {e : Expr} {c : Char} {rest : List Char} (hc : isIdentChar c = false)
    (hdot : c ≠ '.') : e.EndsBefore (c :: rest) :=
  ⟨stops_cons hc, fun h => absurd (Option.some.inj h) hdot⟩

theorem endsBefore_moreArgs {e : Expr} (args : List Expr) (rest : List Char) :
    e.EndsBefore (textOfMoreArgs args ++ ')' :: rest) := by
  cases args with
  | nil => exact endsBefore_cons (by decide) (by decide)
  | cons e es => exact endsBefore_cons (by decide) (by decide)

theorem EndsBefore.last {e e' : Expr} {rest : List Char} (h : e.EndsBefore rest)
    (hlevel : e.level ≠ 0) : e'.EndsBefore rest :=
  ⟨h.1, fun hdot => absurd (h.2 hdot).1 hlevel⟩

theorem bool_spells (b : Bool) {rest : List Char} {ts : List Token}
    (hrest : Stops isIdentChar rest) (h : Spells rest ts) :
    Spells ((Literal.bool b).text ++ rest) (.bool b :: ts) := by
  have hword : Lexer.word (Literal.bool b).text = .bool b := by cases b <;> decide
  rw [← hword]
  exact h.word (by cases b <;> decide) (by cases b <;> decide) hrest

/-- The text without the sign of a number at its start. -/
def unsignedText (e : Expr) : List Char := if e.isNegative then e.text.tail else e.text

theorem head_of_isNegative : ∀ e : Expr, e.isNegative → ∃ cs, e.text = '-' :: cs
  | literal _ v, h => by
    cases v with
    | int v => exact ⟨_, int_text_of_neg (of_decide_eq_true h)⟩
    | _ => cases h
  | unary _ op e, h => by
    obtain ⟨hpost, hneg⟩ : op.isPostfix = true ∧ e.isNegative = true := by
      simpa [isNegative] using h
    obtain ⟨cs, hcs⟩ := e.head_of_isNegative hneg
    exact ⟨cs ++ op.text, by simp [text, hpost, hcs]⟩
  | index _ b i, h => by
    obtain ⟨cs, hcs⟩ := b.head_of_isNegative h
    exact ⟨cs ++ '[' :: i.text ++ [']'], by simp [text, hcs]⟩
  | member _ b f, h => by
    obtain ⟨cs, hcs⟩ := b.head_of_isNegative h
    exact ⟨cs ++ '.' :: f.toList, by simp [text, hcs]⟩

theorem text_eq_unsigned (e : Expr) :
    e.text = (if e.isNegative then ['-'] else []) ++ e.unsignedText := by
  cases hneg : e.isNegative with
  | false => simp [unsignedText, hneg]
  | true =>
    obtain ⟨cs, hcs⟩ := e.head_of_isNegative hneg
    simp [unsignedText, hneg, hcs]

/-- What follows an expression as a suffix follows its text without the sign. -/
theorem unsignedText_suffix {b e : Expr} {suffix : List Char} (hneg : e.isNegative = b.isNegative)
    (htext : e.text = b.text ++ suffix) : e.unsignedText = b.unsignedText ++ suffix := by
  have he := e.text_eq_unsigned
  rw [htext, b.text_eq_unsigned, hneg, List.append_assoc] at he
  exact (List.append_cancel_left he).symm

theorem unsignedText_int (id : NodeId) (v : Int32) : ∃ w : Int32,
    (literal id (.int v)).unsignedText = Numeral.decimal w.toUInt32.toNat ∧
      (Literal.int v).magnitude = .int w := by
  by_cases hneg : v < 0
  · have htext : (literal id (.int v)).text = _ := int_text_of_neg hneg
    exact ⟨-v, by simp [unsignedText, isNegative, Literal.isNegative, hneg, htext],
      by simp [Literal.magnitude, hneg]⟩
  · have htext : (literal id (.int v)).text = _ := int_text (Int32.not_lt.1 hneg)
    exact ⟨v, by simp [unsignedText, isNegative, Literal.isNegative, hneg, htext],
      by simp [Literal.magnitude, hneg]⟩

theorem literal_spells {id : NodeId} {v : Literal} {rest : List Char} {ts : List Token}
    (hv : v.token.Proper) (hrest : (Expr.literal id v).EndsBefore rest) (h : Spells rest ts) :
    Spells ((Expr.literal id v).unsignedText ++ rest) (v.magnitude.token :: ts) := by
  cases v with
  | int v =>
    obtain ⟨w, htext, hmagnitude⟩ := unsignedText_int id v
    rw [htext, hmagnitude]
    exact h.int w hrest.1 fun hdot => (hrest.2 hdot).2 id v rfl
  | uint v => exact h.uint v
  | float v => exact h.float hv hrest.1
  | bool v => exact bool_spells v hrest.1 h

theorem literal_start (id : NodeId) {v : Literal} (hv : v.token.Proper) :
    ∃ c cs, (Expr.literal id v).unsignedText = c :: cs ∧ isIdentChar c := by
  cases v with
  | int v =>
    obtain ⟨w, htext, -⟩ := unsignedText_int id v
    obtain ⟨c, cs, hcs, hc⟩ := decimal_start w.toUInt32.toNat
    exact ⟨c, cs, htext.trans hcs, isIdentChar_of_isDigit c hc⟩
  | uint v =>
    obtain ⟨c, cs, hcs, hc⟩ := decimal_start v.toNat
    exact ⟨c, cs ++ ['u'], congrArg (· ++ ['u']) hcs, isIdentChar_of_isDigit c hc⟩
  | float v =>
    obtain ⟨digits, exponent, htext, -⟩ := Single.text_decimalText hv.1 hv.2
    obtain ⟨c, cs, hcs, hc⟩ := htext.head
    exact ⟨c, cs, hcs, isIdentChar_of_isDigit c hc⟩
  | bool v =>
    cases v with
    | false => exact ⟨'f', "alse".toList, rfl, by decide⟩
    | true => exact ⟨'t', "rue".toList, rfl, by decide⟩

theorem properName_start {name : String} (h : ProperName name) :
    ∃ c cs, name.toList = c :: cs ∧ isIdentStart c ∧ isIdentChar c := by
  obtain ⟨hstart, hall, -⟩ := h
  cases hname : name.toList with
  | nil => simp [hname] at hstart
  | cons c cs =>
    refine ⟨c, cs, rfl, by simpa [hname] using hstart, ?_⟩
    exact List.all_eq_true.1 hall c (by simp [hname])

/-- Where a suffix can follow, the text starts with a word, a number or a bracket, once a sign is
left out. -/
theorem text_start : ∀ e : Expr, e.WellFormed → e.level = 0 →
    ∃ c cs, e.unsignedText = c :: cs ∧ (isIdentChar c ∨ c = '(')
  | literal id v, hwf, _ => by
    obtain ⟨c, cs, hcs, hc⟩ := literal_start id hwf
    exact ⟨c, cs, hcs, .inl hc⟩
  | name _ n, hwf, _ => by
    obtain ⟨c, cs, hcs, -, hc⟩ := properName_start hwf
    exact ⟨c, cs, hcs, .inl hc⟩
  | paren _ e, _, _ => ⟨'(', e.text ++ [')'], rfl, .inr rfl⟩
  | unary id op e, hwf, hlevel => by
    have hpost : op.isPostfix = true := by
      by_contra hpre
      simp [level, hpre] at hlevel
    have hbase : e.level ≤ 0 := by simpa [hpost] using hwf.2
    obtain ⟨c, cs, hcs, hc⟩ := e.text_start hwf.1 (by omega)
    have htext : (unary id op e).unsignedText = e.unsignedText ++ op.text :=
      unsignedText_suffix (by simp [isNegative, hpost]) (by simp [text, hpost])
    exact ⟨c, cs ++ op.text, by simp [htext, hcs], hc⟩
  | binary _ op _ _, _, hlevel => by simp [level] at hlevel
  | ternary _ _ _ _, _, hlevel => by simp [level] at hlevel
  | assign _ _ _ _, _, hlevel => by simp [level] at hlevel
  | call _ f args, hwf, _ => by
    obtain ⟨c, cs, hcs, -, hc⟩ := properName_start hwf.1
    exact ⟨c, cs ++ '(' :: textOfArgs args ++ [')'],
      by simp [unsignedText, isNegative, text, hcs], .inl hc⟩
  | index id b i, hwf, _ => by
    obtain ⟨c, cs, hcs, hc⟩ := b.text_start hwf.1 hwf.2.2
    have htext : (index id b i).unsignedText = b.unsignedText ++ ('[' :: i.text ++ [']']) :=
      unsignedText_suffix rfl (by simp [text])
    exact ⟨c, cs ++ ('[' :: i.text ++ [']']), by rw [htext, hcs, List.cons_append], hc⟩
  | member id b f, hwf, _ => by
    obtain ⟨c, cs, hcs, hc⟩ := b.text_start hwf.1 hwf.2.2
    have htext : (member id b f).unsignedText = b.unsignedText ++ '.' :: f.toList :=
      unsignedText_suffix rfl (by simp [text])
    exact ⟨c, cs ++ '.' :: f.toList, by rw [htext, hcs, List.cons_append], hc⟩

theorem merges_sign {op : UnaryOp} {c : Char} (hplus : c ≠ '+') (hminus : c ≠ '-')
    (hassign : c ≠ '=') : merges op.symbol c = false := by
  have hlonger : ∀ t ∈ Symbol.all, t.text.dropLast ∈ [['-'], ['+'], ['!'], ['~']] →
      t.text.getLast? ∈ [some '+', some '-', some '='] := by decide
  by_cases hlength : op.symbol.text.length = 1
  · have hnone : Symbol.ofText? (op.symbol.text ++ [c]) = none := by
      refine List.find?_eq_none.2 fun t ht htext => ?_
      have heq : t.text = op.symbol.text ++ [c] := of_decide_eq_true htext
      have hlast := hlonger t ht (by
        rw [heq, List.dropLast_concat]
        cases op <;> simp_all [UnaryOp.symbol, Symbol.text])
      simp [heq, hplus, hminus, hassign] at hlast
    cases op <;> simp_all [merges, UnaryOp.symbol]
  · simp [merges, hlength]

theorem merges_dot {c : Char} (hc : isIdentStart c) : merges .dot c = false := by
  have hdigit : c.isDigit = false := by
    cases hd : c.isDigit with
    | false => rfl
    | true => simp [(digit_apart hd).2.2.2] at hc
  have hlonger : ∀ t ∈ Symbol.all, t.text.head? = some '.' → t.text.length = 1 := by decide
  have hnone : Symbol.ofText? (Symbol.dot.text ++ [c]) = none := by
    refine List.find?_eq_none.2 fun t ht htext => ?_
    have heq : t.text = ['.', c] := of_decide_eq_true htext
    have hlength := hlonger t ht (by simp [heq])
    simp [heq] at hlength
  simp [merges, hnone, hdigit]

/-- Where a suffix can follow, nothing runs into what is read after the sign. -/
theorem merges_start {op : UnaryOp} {e : Expr} (hwf : e.WellFormed) (hlevel : e.level = 0)
    (rest : List Char) : ∀ c ∈ (e.unsignedText ++ rest).head?, merges op.symbol c = false := by
  obtain ⟨c, cs, hcs, hc⟩ := text_start e hwf hlevel
  have hne {d : Char} (hd : isIdentChar d = false) (hparen : d ≠ '(') : c ≠ d := by
    rintro rfl
    rcases hc with hc | hc
    · simp [hc] at hd
    · exact hparen hc
  simpa [hcs] using merges_sign (hne (by decide) (by decide)) (hne (by decide) (by decide))
    (hne (by decide) (by decide))

/-- A prefix operator does not run into its operand, where it is no sign before another. -/
theorem operand_apart {op : UnaryOp} {e : Expr} (hop : op.isPostfix = false) (hwf : e.WellFormed)
    (hlevel : e.level ≤ 1) (hsign : (op.isSign && e.isSign) = false)
    (hneg : ¬(e.isNegative && op = .neg)) (rest : List Char) :
    ∀ c ∈ (e.text ++ rest).head?, merges op.symbol c = false := by
  cases hnegative : e.isNegative with
  | true =>
    have hne : op ≠ .neg := by simpa [hnegative] using hneg
    obtain ⟨cs, hcs⟩ := e.head_of_isNegative hnegative
    rw [hcs]
    rintro _ ⟨⟩
    cases op with
    | neg => exact absurd rfl hne
    | postInc | postDec => cases hop
    | _ => decide
  | false =>
    rcases Nat.le_one_iff_eq_zero_or_eq_one.1 hlevel with hzero | hone
    · have htext : e.text = e.unsignedText := by simp [unsignedText, hnegative]
      rw [htext]
      exact merges_start hwf hzero rest
    · obtain ⟨id, inner, e', rfl, hpre⟩ :
          ∃ id inner e', e = .unary id inner e' ∧ inner.isPostfix = false := by
        cases e with
        | unary id inner e' => exact ⟨id, inner, e', rfl, by simpa [level] using hone⟩
        | binary id inner l r => cases inner <;> simp [level, BinaryOp.level] at hone
        | _ => simp [level, BinaryOp.loosest] at hone
      have htext : (e'.unary id inner).text =
          inner.text ++ ((if inner.isSign && e'.isSign then [' '] else []) ++ e'.text) := by
        simp [text, hpre]
      rw [htext]
      cases hinner : inner.isSign with
      | false =>
        rcases inner.eq_not_or_bitNot hpre hinner with rfl | rfl
        · rintro _ ⟨⟩
          exact merges_sign (by decide) (by decide) (by decide)
        · rintro _ ⟨⟩
          exact merges_sign (by decide) (by decide) (by decide)
      | true =>
        have hnot : op.isSign = false := by simpa [isSign, hinner] using hsign
        rcases op.eq_not_or_bitNot hop hnot with rfl | rfl
        · cases inner <;> rintro _ ⟨⟩ <;> decide
        · exact fun c _ => merges_closed (by decide) c

/-- The sign of a number is a token of its own, where nothing is in front of it. -/
theorem reread_spells {e : Expr} (hwf : e.WellFormed) {rest : List Char} {ts : List Token}
    (h : Spells (e.unsignedText ++ rest) (e.magnitude.tokens ++ ts)) :
    Spells (e.text ++ rest) (e.reread.tokens ++ ts) := by
  rw [e.text_eq_unsigned]
  cases hneg : e.isNegative with
  | false => simpa [reread, signed, hneg] using h
  | true =>
    have hminus := h.symbol UnaryOp.neg.symbol (merges_start hwf (level_of_isNegative hneg) rest)
    simpa [reread, signed, hneg, tokens, UnaryOp.isPostfix, UnaryOp.symbol, Symbol.text] using hminus

theorem unary_spells (id : NodeId) {op : UnaryOp} {e : Expr} (hpre : op.isPostfix = false)
    (hwf : e.WellFormed) (hlevel : e.level ≤ 1) {rest : List Char} {ts : List Token}
    (h : Spells (e.unsignedText ++ rest) (e.magnitude.tokens ++ ts)) :
    Spells ((unary id op e).unsignedText ++ rest) ((unary id op e).magnitude.tokens ++ ts) := by
  by_cases hneg : e.isNegative && op = .neg
  · -- two minus signs in a row are one operator
    obtain ⟨hnegative, rfl⟩ : e.isNegative = true ∧ op = .neg := by simpa using hneg
    have hsign := (isSign_of_isNegative hnegative).1
    have htext : (unary id .neg e).text = '-' :: e.text := by
      simp [text, UnaryOp.isPostfix, hsign, UnaryOp.text]
    rw [e.text_eq_unsigned, if_pos hnegative] at htext
    simpa [unsignedText, isNegative, UnaryOp.isPostfix, htext, magnitude, hnegative, tokens,
      UnaryOp.symbol, Symbol.text] using h.closed (s := .dec) (by decide)
  · have hwhole := reread_spells hwf h
    have hjoined : Spells (op.text ++ ((if op.isSign && e.isSign then [' '] else []) ++
        (e.text ++ rest))) (.symbol op.symbol :: (e.reread.tokens ++ ts)) := by
      rw [← op.symbol_text]
      by_cases hsign : op.isSign && e.isSign
      · rw [if_pos hsign]
        refine (hwhole.space (c := ' ') (by decide)).symbol op.symbol ?_
        rintro _ ⟨⟩
        cases op <;> decide
      · rw [if_neg hsign]
        exact hwhole.symbol op.symbol
          (operand_apart hpre hwf hlevel (by simpa using hsign) hneg rest)
    simpa [unsignedText, isNegative, hpre, text, magnitude, hneg, tokens, reread] using hjoined

mutual

/-- The text of an expression without a sign at its start is cut into tokens. -/
theorem magnitude_spells : ∀ (e : Expr) {rest : List Char} {ts : List Token}, e.WellFormed →
    (∀ n ∈ e.nodes, n.Legible) → e.EndsBefore rest → Spells rest ts →
    Spells (e.unsignedText ++ rest) (e.magnitude.tokens ++ ts)
  | literal id v, rest, ts, hwf, _, hrest, h => literal_spells hwf hrest h
  | name _ n, rest, ts, hwf, _, hrest, h => h.ident hwf hrest.1
  | paren _ e, rest, ts, hwf, hlegible, _, h => by
    simp only [nodes, List.forall_mem_cons] at hlegible
    have hclose : Spells (')' :: rest) (.symbol .rparen :: ts) := h.closed (s := .rparen) (by decide)
    have hinner := reread_spells (e := e) hwf
      (e.magnitude_spells hwf hlegible.2 (endsBefore_cons (by decide) (by decide)) hclose)
    simpa [unsignedText, isNegative, text, magnitude, tokens, reread, Symbol.text] using
      hinner.closed (s := .lparen) (by decide)
  | unary id op e, rest, ts, hwf, hlegible, hrest, h => by
    simp only [nodes, List.forall_mem_cons] at hlegible
    by_cases hpost : op.isPostfix
    · have hop : Spells (op.text ++ rest) (.symbol op.symbol :: ts) := by
        rw [← op.symbol_text]
        exact h.closed (by cases op <;> simp_all [UnaryOp.isPostfix, UnaryOp.symbol, Lexer.closed])
      have hends : e.EndsBefore (op.text ++ rest) := by
        cases op <;> simp_all [UnaryOp.isPostfix] <;> exact endsBefore_cons (by decide) (by decide)
      have htext : (unary id op e).unsignedText = e.unsignedText ++ op.text :=
        unsignedText_suffix (by simp [isNegative, hpost]) (by simp [text, hpost])
      simpa [htext, magnitude, tokens, hpost] using e.magnitude_spells hwf.1 hlegible.2 hends hop
    · have hpre : op.isPostfix = false := by simpa using hpost
      have hlevel : e.level ≤ 1 := by simpa [hpre] using hwf.2
      exact unary_spells id hpre hwf.1 hlevel
        (e.magnitude_spells hwf.1 hlegible.2 (hrest.last (by simp [level, hpre])) h)
  | binary _ op l r, rest, ts, hwf, hlegible, hrest, h => by
    simp only [nodes, List.forall_mem_cons, List.forall_mem_append] at hlegible
    have hr := reread_spells hwf.2.1
      (r.magnitude_spells hwf.2.1 hlegible.2.2 (hrest.last (by simp [level])) h)
    have hl := reread_spells hwf.1 (l.magnitude_spells hwf.1 hlegible.2.1
      (endsBefore_cons (by decide) (by decide)) (hr.operator op.symbol))
    simpa [unsignedText, isNegative, text, magnitude, tokens, reread, op.symbol_text] using hl
  | assign _ op l r, rest, ts, hwf, hlegible, hrest, h => by
    simp only [nodes, List.forall_mem_cons, List.forall_mem_append] at hlegible
    have hr := reread_spells hwf.2.1
      (r.magnitude_spells hwf.2.1 hlegible.2.2 (hrest.last (by simp [level])) h)
    have hl := reread_spells hwf.1 (l.magnitude_spells hwf.1 hlegible.2.1
      (endsBefore_cons (by decide) (by decide)) (hr.operator op.symbol))
    simpa [unsignedText, isNegative, text, magnitude, tokens, reread, op.symbol_text] using hl
  | ternary _ c y n, rest, ts, hwf, hlegible, hrest, h => by
    simp only [nodes, List.forall_mem_cons, List.forall_mem_append] at hlegible
    have hn := reread_spells hwf.2.2.1
      (n.magnitude_spells hwf.2.2.1 hlegible.2.2 (hrest.last (by simp [level])) h)
    have hy := reread_spells hwf.2.1 (y.magnitude_spells hwf.2.1 hlegible.2.1.2
      (endsBefore_cons (by decide) (by decide)) (hn.operator .colon))
    have hc := reread_spells hwf.1 (c.magnitude_spells hwf.1 hlegible.2.1.1
      (endsBefore_cons (by decide) (by decide)) (hy.operator .question))
    simpa [unsignedText, isNegative, text, magnitude, tokens, reread, Symbol.text] using hc
  | call _ f args, rest, ts, hwf, hlegible, _, h => by
    simp only [nodes, List.forall_mem_cons] at hlegible
    have hclose : Spells (')' :: rest) (.symbol .rparen :: ts) := h.closed (s := .rparen) (by decide)
    have hargs := textOfArgs_spells args hwf.2 hlegible.2 hclose
    have hopen := hargs.closed (s := .lparen) (by decide)
    simpa [unsignedText, isNegative, text, magnitude, tokens] using
      hopen.ident hwf.1 (stops_cons (by decide))
  | index id b i, rest, ts, hwf, hlegible, _, h => by
    simp only [nodes, List.forall_mem_cons, List.forall_mem_append] at hlegible
    have hclose : Spells (']' :: rest) (.symbol .rbracket :: ts) :=
      h.closed (s := .rbracket) (by decide)
    have hi := reread_spells hwf.2.1 (i.magnitude_spells hwf.2.1 hlegible.2.2
      (endsBefore_cons (by decide) (by decide)) hclose)
    have hopen := hi.closed (s := .lbracket) (by decide)
    have htext : (index id b i).unsignedText = b.unsignedText ++ ('[' :: i.text ++ [']']) :=
      unsignedText_suffix rfl (by simp [text])
    simpa [htext, magnitude, tokens, reread, Symbol.text] using
      b.magnitude_spells hwf.1 hlegible.2.1 (endsBefore_cons (by decide) (by decide)) hopen
  | member id b f, rest, ts, hwf, hlegible, hrest, h => by
    simp only [nodes, List.forall_mem_cons] at hlegible
    obtain ⟨c, cs, hcs, hstart, -⟩ := properName_start hwf.2.1
    have hdot := (h.ident hwf.2.1 hrest.1).symbol .dot (by
      rw [hcs]
      rintro _ ⟨⟩
      exact merges_dot hstart)
    have hends : b.EndsBefore ('.' :: (f.toList ++ rest)) := by
      refine ⟨stops_cons (by decide), fun _ => ⟨hwf.2.2, ?_⟩⟩
      rintro id v rfl
      exact hlegible.1
    have htext : (member id b f).unsignedText = b.unsignedText ++ '.' :: f.toList :=
      unsignedText_suffix rfl (by simp [text])
    simpa [htext, magnitude, tokens, Symbol.text] using
      b.magnitude_spells hwf.1 hlegible.2 hends hdot

theorem textOfArgs_spells : ∀ (args : List Expr) {rest : List Char} {ts : List Token},
    WellFormedArgs args → (∀ n ∈ nodesOfArgs args, n.Legible) →
    Spells (')' :: rest) ts →
    Spells (textOfArgs args ++ ')' :: rest) (tokensOfArgs (rereadArgs args) ++ ts)
  | [], rest, ts, _, _, h => h
  | e :: es, rest, ts, hwf, hlegible, h => by
    simp only [nodesOfArgs, List.forall_mem_append] at hlegible
    have hmore := textOfMoreArgs_spells es hwf.2 hlegible.2 h
    simpa [textOfArgs, rereadArgs, tokensOfArgs, reread] using reread_spells hwf.1
      (e.magnitude_spells hwf.1 hlegible.1 (endsBefore_moreArgs es rest) hmore)

theorem textOfMoreArgs_spells : ∀ (args : List Expr) {rest : List Char} {ts : List Token},
    WellFormedArgs args → (∀ n ∈ nodesOfArgs args, n.Legible) →
    Spells (')' :: rest) ts →
    Spells (textOfMoreArgs args ++ ')' :: rest) (tokensOfMoreArgs (rereadArgs args) ++ ts)
  | [], rest, ts, _, _, h => h
  | e :: es, rest, ts, hwf, hlegible, h => by
    simp only [nodesOfArgs, List.forall_mem_append] at hlegible
    have hmore := textOfMoreArgs_spells es hwf.2 hlegible.2 h
    have he := reread_spells hwf.1
      (e.magnitude_spells hwf.1 hlegible.1 (endsBefore_moreArgs es rest) hmore)
    simpa [textOfMoreArgs, rereadArgs, tokensOfMoreArgs, reread, Symbol.text] using
      (he.space (c := ' ') (by decide)).closed (s := .comma) (by decide)

end

end Expr

/-- A text that starts with no part of a word and no point. -/
def Delimits (rest : List Char) : Prop := Stops (fun c => isIdentChar c || c = '.') rest

theorem delimits_cons {c : Char} {rest : List Char} (hc : (isIdentChar c || c = '.') = false) :
    Delimits (c :: rest) := stops_cons hc

theorem Delimits.stops {rest : List Char} (h : Delimits rest) : Stops isIdentChar rest :=
  h.mono fun c hc => by simp [hc]

theorem Delimits.endsBefore {rest : List Char} (h : Delimits rest) (e : Expr) :
    e.EndsBefore rest := by
  refine ⟨h.stops, fun hdot => ?_⟩
  have hpoint := h '.' hdot
  simp at hpoint

/-- The text is cut into the tokens wherever a delimiter follows. -/
def Writes (text : List Char) (tokens : List Token) : Prop :=
  ∀ rest ts, Delimits rest → Spells rest ts → Spells (text ++ rest) (tokens ++ ts)

/-- The text is cut into the tokens whatever follows. -/
def WritesLine (text : List Char) (tokens : List Token) : Prop :=
  ∀ rest ts, Spells rest ts → Spells (text ++ rest) (tokens ++ ts)

theorem WritesLine.flatMap {α : Type} {text : α → List Char} {tokens : α → List Token}
    {xs : List α} (h : ∀ x ∈ xs, WritesLine (text x) (tokens x)) :
    WritesLine (xs.flatMap text) (xs.flatMap tokens) := by
  induction xs with
  | nil => exact fun rest ts h => h
  | cons x xs ih =>
    intro rest ts hrest
    have hxs := ih (fun y hy => h y (List.mem_cons_of_mem _ hy)) rest ts hrest
    simpa using h x List.mem_cons_self _ _ hxs

theorem joinTexts_writes {α : Type} {text : α → List Char} {tokens : α → List Token} {xs : List α}
    (hitem : ∀ x ∈ xs, Writes (text x) (tokens x)) :
    Writes (joinTexts ", ".toList (xs.map text)) (commaTokens (xs.map tokens)) := by
  induction xs with
  | nil => exact fun rest ts _ h => h
  | cons x xs ih =>
    intro rest ts hrest h
    have hx := hitem x List.mem_cons_self
    have hxs := ih (fun y hy => hitem y (List.mem_cons_of_mem _ hy)) rest ts hrest h
    cases xs with
    | nil => simpa [joinTexts, commaTokens] using hx rest ts hrest h
    | cons y ys =>
      have hcomma := (hxs.space (c := ' ') (by decide)).closed (s := .comma) (by decide)
      have hfirst := hx _ _ (delimits_cons (by decide)) hcomma
      simpa [joinTexts, commaTokens, Symbol.text] using hfirst

theorem Expr.text_writes {e : Expr} (hwf : e.WellFormed) (hlegible : ∀ n ∈ e.nodes, n.Legible) :
    Writes e.text e.reread.tokens :=
  fun _ _ hrest h => reread_spells hwf (e.magnitude_spells hwf hlegible (hrest.endsBefore e) h)

theorem DataType.text_writes (t : DataType) : Writes t.text [t.token] := by
  intro rest ts hrest h
  have hstart : t.text.head?.any isIdentStart := by
    cases t with
    | mat c r => cases c <;> cases r <;> decide
    | vec n | ivec n | uvec n | bvec n => cases n <;> decide
    | _ => decide
  have hall : t.text.all isIdentChar := by
    cases t with
    | mat c r => cases c <;> cases r <;> decide
    | vec n | ivec n | uvec n | bvec n => cases n <;> decide
    | _ => decide
  have hword : Lexer.word t.text = t.token := by
    cases t with
    | mat c r => cases c <;> cases r <;> decide
    | vec n | ivec n | uvec n | bvec n => cases n <;> decide
    | _ => decide
  exact hword ▸ h.word hstart hall hrest.stops

theorem LayoutItem.text_writes {item : LayoutItem} (hwf : item.WellFormed) :
    Writes item.text item.tokens := by
  intro rest ts hrest h
  cases hvalue : item.value with
  | none => simpa [text, tokens, hvalue, tokensOrNone] using h.ident hwf.1 hrest.stops
  | some v =>
    have hdot : rest.head? ≠ some '.' := fun hdot => by simpa using hrest '.' hdot
    have hv := (h.int v.toInt32 hrest.stops hdot).operator .assign
    have hname := hv.ident hwf.1 (stops_cons (by decide))
    simpa [text, tokens, hvalue, tokensOrNone, Symbol.text] using hname

theorem Qualifier.text_writes {q : Qualifier} (hwf : q.WellFormed) : Writes q.text q.tokens := by
  intro rest ts hrest h
  cases q with
  | layout items =>
    have hclose : Spells (')' :: rest) (.symbol .rparen :: ts) := h.closed (s := .rparen) (by decide)
    have hitems : Writes (joinTexts ", ".toList (items.map LayoutItem.text))
        (commaTokens (items.map LayoutItem.tokens)) :=
      joinTexts_writes fun item hitem => LayoutItem.text_writes (hwf.2 item hitem)
    have hopen := (hitems _ _ (delimits_cons (by decide)) hclose).closed (s := .lparen) (by decide)
    have hlayout := hopen.keyword .layout (stops_cons (by decide))
    have hword : "layout(".toList = Keyword.layout.text ++ ['('] := by decide
    have htext : (layout items).text =
        "layout(".toList ++ joinTexts ", ".toList (items.map LayoutItem.text) ++ [')'] := rfl
    rw [htext, hword]
    simpa [tokens, Symbol.text] using hlayout
  | precision p =>
    have hp := h.keyword p.keyword hrest.stops
    rwa [p.keyword_text] at hp
  | const => exact h.keyword .const hrest.stops
  | uniform => exact h.keyword .uniform hrest.stops
  | input => exact h.keyword .in_ hrest.stops
  | output => exact h.keyword .out hrest.stops
  | inout => exact h.keyword .inout hrest.stops
  | flat => exact h.keyword .flat hrest.stops
  | buffer => exact h.keyword .buffer hrest.stops

theorem qualifiers_write {qs : List Qualifier} (hwf : ∀ q ∈ qs, q.WellFormed) :
    WritesLine (qs.flatMap fun q => q.text ++ [' ']) (qs.flatMap Qualifier.tokens) := by
  refine WritesLine.flatMap fun q hq rest ts h => ?_
  simpa using Qualifier.text_writes (hwf q hq) _ _ (delimits_cons (by decide))
    (h.space (c := ' ') (by decide))

theorem QualifiedType.text_writes {t : QualifiedType} (hwf : t.WellFormed) :
    Writes t.text t.tokens := by
  intro rest ts hrest h
  simpa [text, tokens] using qualifiers_write hwf _ _ (t.base.text_writes rest ts hrest h)

theorem ArraySuffix.text_writes {a : ArraySuffix} (hwf : a.WellFormed)
    (hlegible : ∀ n ∈ nodesOfOption a.size, n.Legible) : Writes a.text a.reread.tokens := by
  intro rest ts _ h
  have hclose : Spells (']' :: rest) (.symbol .rbracket :: ts) :=
    h.closed (s := .rbracket) (by decide)
  cases hsize : a.size with
  | none =>
    simpa [text, reread, tokens, hsize, tokensOrNone, Symbol.text] using
      hclose.closed (s := .lbracket) (by decide)
  | some e =>
    rw [hsize] at hlegible
    have he := Expr.text_writes (hwf e hsize) hlegible _ _ (delimits_cons (by decide)) hclose
    simpa [text, reread, tokens, hsize, tokensOrNone, Symbol.text] using
      he.closed (s := .lbracket) (by decide)

theorem nameWithSuffix_writes {name : String} {array : Option ArraySuffix}
    (hname : ProperName name) (harray : ∀ a ∈ array, a.WellFormed)
    (hlegible : ∀ n ∈ nodesOfSuffix array, n.Legible) :
    Writes (name.toList ++ textOrEmpty ArraySuffix.text array)
      (.ident name :: tokensOrNone ArraySuffix.tokens (array.map ArraySuffix.reread)) := by
  intro rest ts hrest h
  cases array with
  | none => simpa [textOrEmpty, tokensOrNone] using h.ident hname hrest.stops
  | some a =>
    have ha := ArraySuffix.text_writes (harray a rfl) hlegible rest ts hrest h
    have hstop : Stops isIdentChar (a.text ++ rest) := by
      cases hsize : a.size <;> simp only [ArraySuffix.text, hsize] <;> exact stops_cons (by decide)
    simpa [textOrEmpty, tokensOrNone] using ha.ident hname hstop

theorem Declarator.text_writes {d : Declarator} (hwf : d.WellFormed)
    (hlegible : ∀ n ∈ d.nodes, n.Legible) : Writes d.text d.reread.tokens := by
  intro rest ts hrest h
  rw [nodes, List.forall_mem_append] at hlegible
  have hname := nameWithSuffix_writes hwf.1 hwf.2.1 hlegible.1
  cases hinit : d.init with
  | none =>
    simpa [text, reread, tokens, hinit, textOrEmpty, tokensOrNone] using hname rest ts hrest h
  | some e =>
    rw [hinit] at hlegible
    have he := Expr.text_writes (hwf.2.2 e hinit) hlegible.2 rest ts hrest h
    have hassign := hname _ _ (delimits_cons (by decide)) (he.operator .assign)
    simpa [text, reread, tokens, hinit, textOrEmpty, tokensOrNone, Symbol.text] using hassign

theorem Variables.text_writes {v : Variables} (hwf : v.WellFormed)
    (hlegible : ∀ n ∈ v.nodes, n.Legible) :
    WritesLine v.text v.reread.tokens := by
  intro rest ts h
  rw [nodes, List.forall_mem_flatMap] at hlegible
  have hsemi : Spells (';' :: rest) (.symbol .semi :: ts) := h.closed (s := .semi) (by decide)
  have hvars := joinTexts_writes (fun d hd => Declarator.text_writes (hwf.2.2 d hd) (hlegible d hd))
    (';' :: rest) (.symbol .semi :: ts) (delimits_cons (by decide)) hsemi
  have htype := QualifiedType.text_writes hwf.1 _ _ (delimits_cons (by decide))
    (hvars.space (c := ' ') (by decide))
  simpa [text, reread, tokens, Function.comp_def] using htype

theorem isGapChar_indent (depth : Nat) : ∀ c ∈ indent depth, isGapChar c := by
  intro c hc
  obtain rfl := List.eq_of_mem_replicate hc
  decide

namespace Stmt

theorem text_eq (place : Place) (depth : Nat) (s : Stmt) :
    s.text place depth = s.lead place depth ++ s.text .line (s.depthAt place depth) := by
  cases s <;> simp [text, lead, depthAt]

theorem isGapChar_lead (place : Place) (depth : Nat) (s : Stmt) :
    ∀ c ∈ s.lead place depth, isGapChar c := by
  have hline : ∀ c ∈ '\n' :: indent (depth + 1), isGapChar c := by
    intro c hc
    obtain rfl | hc := List.mem_cons.1 hc
    · decide
    · exact isGapChar_indent _ c hc
  have hblank : ∀ c ∈ [' '], isGapChar c := List.forall_mem_singleton.2 (by decide)
  unfold lead
  split
  · simp
  · split
    · exact hblank
    · exact hline
  · split
    · exact hblank
    · exact hline

theorem stops_text {place : Place} (hplace : place ≠ .line) (depth : Nat) (s : Stmt)
    (rest : List Char) : Stops isIdentChar (s.text place depth ++ rest) := by
  have hlead : ∃ c cs, s.lead place depth = c :: cs ∧ isIdentChar c = false := by
    cases place with
    | line => exact absurd rfl hplace
    | branch | otherwise =>
      simp only [lead]
      split
      · exact ⟨' ', [], rfl, by decide⟩
      · exact ⟨'\n', _, rfl, by decide⟩
  obtain ⟨c, cs, hcs, hc⟩ := hlead
  rw [text_eq, hcs]
  exact stops_cons hc

end Stmt

theorem Lexer.Spells.head (k : Keyword) {rest : List Char} {ts : List Token} (h : Spells rest ts) :
    Spells (k.text ++ ' ' :: '(' :: rest) (.keyword k :: .symbol .lparen :: ts) := by
  have hopen : Spells ('(' :: rest) (.symbol .lparen :: ts) := h.closed (s := .lparen) (by decide)
  exact (hopen.space (by decide)).keyword k (stops_cons (by decide))

theorem optionExpr_writes {e : Option Expr} (hwf : ∀ v ∈ e, v.WellFormed)
    (hlegible : ∀ n ∈ nodesOfOption e, n.Legible) :
    Writes (textOrEmpty Expr.text e) (tokensOrNone Expr.tokens (e.map Expr.reread)) := by
  cases e with
  | none => exact fun _ _ _ h => h
  | some e => exact Expr.text_writes (hwf e rfl) hlegible

theorem Jump.text_writes (k : Jump) : WritesLine k.text [.keyword k.keyword, .symbol .semi] := by
  intro rest ts h
  have hsemi : Spells (';' :: rest) (.symbol .semi :: ts) := h.closed (s := .semi) (by decide)
  have htext : k.text = k.keyword.text ++ [';'] := by cases k <;> decide
  rw [htext]
  simpa using hsemi.keyword k.keyword (stops_cons (by decide))

namespace Stmt

theorem loopInit_writes {s : Stmt} (hinit : s.IsLoopInit) (hwf : s.WellFormed)
    (hlegible : ∀ n ∈ s.nodes, n.Legible) : WritesLine (s.text .line 0).dropLast s.reread.tokens := by
  intro rest ts h
  have hsemi : Spells (';' :: rest) (.symbol .semi :: ts) := h.closed (s := .semi) (by decide)
  cases s with
  | declare id vars =>
    simp only [nodes, List.forall_mem_cons] at hlegible
    simpa [text, lead, reread, tokens] using Variables.text_writes hwf hlegible.2 rest ts h
  | expr id e =>
    simp only [nodes, List.forall_mem_cons] at hlegible
    have he := Expr.text_writes hwf hlegible.2 _ _ (delimits_cons (by decide)) hsemi
    have hline : (text .line 0 (expr id e)).dropLast = e.text ++ [';'] := by
      simp [text, lead]
    simpa [hline, reread, tokens] using he
  | empty id => simpa [text, lead, reread, tokens] using hsemi
  | _ => exact hinit.elim

mutual

theorem text_writes : ∀ (s : Stmt) (depth : Nat), s.WellFormed → (∀ n ∈ s.nodes, n.Legible) →
    WritesLine (s.text .line depth) s.reread.tokens
  | block id body, depth, hwf, hlegible, rest, ts, h => by
    simp only [nodes, List.forall_mem_cons] at hlegible
    have hend := (h.space (c := '\n') (by decide)).closed (s := .rbrace) (by decide)
    have hbody := textOfBody_writes body (depth + 1) hwf hlegible.2 _ _
      (hend.spaces (isGapChar_indent depth))
    have hopen := (hbody.space (c := '\n') (by decide)).closed (s := .lbrace) (by decide)
    simpa [text, reread, tokens, lead, depthAt, Symbol.text] using hopen
  | declare id vars, depth, hwf, hlegible, rest, ts, h => by
    simp only [nodes, List.forall_mem_cons] at hlegible
    simpa [text, reread, tokens, lead] using
      Variables.text_writes hwf hlegible.2 _ _ (h.space (c := '\n') (by decide))
  | expr id e, depth, hwf, hlegible, rest, ts, h => by
    simp only [nodes, List.forall_mem_cons] at hlegible
    have hsemi := (h.space (c := '\n') (by decide)).closed (s := .semi) (by decide)
    simpa [text, reread, tokens, lead, Symbol.text] using
      Expr.text_writes hwf hlegible.2 _ _ (delimits_cons (by decide)) hsemi
  | ifThen id c y, depth, hwf, hlegible, rest, ts, h => by
    simp only [nodes, List.forall_mem_cons, List.forall_mem_append] at hlegible
    have hyes := branch_writes y .branch depth hwf.2 hlegible.2.2 rest ts h
    have hclose := hyes.closed (s := .rparen) (by decide)
    have hcond := Expr.text_writes hwf.1 hlegible.2.1 _ _ (delimits_cons (by decide)) hclose
    have hword : "if (".toList = Keyword.if_.text ++ [' ', '('] := by decide
    have hhead := hcond.head .if_
    simp only [text, hword]
    simpa [reread, tokens, lead, depthAt, Symbol.text] using hhead
  | ifElse id c y n, depth, hwf, hlegible, rest, ts, h => by
    simp only [nodes, List.forall_mem_cons, List.forall_mem_append, and_assoc] at hlegible
    have hno := branch_writes n .otherwise depth hwf.2.2.1 hlegible.2.2.2 rest ts h
    have helse := (hno.keyword .else_ (stops_text (by decide) depth n rest)).spaces
      (isGapChar_indent depth)
    have hyes := branch_writes y .branch depth hwf.2.1 hlegible.2.2.1 _ _ helse
    have hclose := hyes.closed (s := .rparen) (by decide)
    have hcond := Expr.text_writes hwf.1 hlegible.2.1 _ _ (delimits_cons (by decide)) hclose
    have hword : "if (".toList = Keyword.if_.text ++ [' ', '('] := by decide
    have hother : "else".toList = Keyword.else_.text := by decide
    have hhead := hcond.head .if_
    simp only [text, hword, hother]
    simpa [reread, tokens, lead, depthAt, Symbol.text] using hhead
  | forLoop id init c step body, depth, hwf, hlegible, rest, ts, h => by
    simp only [nodes, List.forall_mem_cons, List.forall_mem_append, and_assoc] at hlegible
    have hbody := branch_writes body .branch depth hwf.2.2.2.2 hlegible.2.2.2.2 rest ts h
    have hclose := hbody.closed (s := .rparen) (by decide)
    have hstep := optionExpr_writes hwf.2.2.2.1 hlegible.2.2.2.1 _ _ (delimits_cons (by decide))
      hclose
    have hsemi := (hstep.space (c := ' ') (by decide)).closed (s := .semi) (by decide)
    have hcond := optionExpr_writes hwf.2.2.1 hlegible.2.2.1 _ _ (delimits_cons (by decide)) hsemi
    have hinit := loopInit_writes hwf.2.1 hwf.1 hlegible.2.1 _ _ (hcond.space (c := ' ') (by decide))
    have hword : "for (".toList = Keyword.for_.text ++ [' ', '('] := by decide
    have hhead := hinit.head .for_
    simp only [text, hword]
    simpa [reread, tokens, lead, depthAt, Symbol.text] using hhead
  | whileLoop id c body, depth, hwf, hlegible, rest, ts, h => by
    simp only [nodes, List.forall_mem_cons, List.forall_mem_append] at hlegible
    have hbody := branch_writes body .branch depth hwf.2 hlegible.2.2 rest ts h
    have hclose := hbody.closed (s := .rparen) (by decide)
    have hcond := Expr.text_writes hwf.1 hlegible.2.1 _ _ (delimits_cons (by decide)) hclose
    have hword : "while (".toList = Keyword.while_.text ++ [' ', '('] := by decide
    have hhead := hcond.head .while_
    simp only [text, hword]
    simpa [reread, tokens, lead, depthAt, Symbol.text] using hhead
  | doWhile id body c, depth, hwf, hlegible, rest, ts, h => by
    simp only [nodes, List.forall_mem_cons, List.forall_mem_append] at hlegible
    have hsemi := (h.space (c := '\n') (by decide)).closed (s := .semi) (by decide)
    have hclose := hsemi.closed (s := .rparen) (by decide)
    have hcond := Expr.text_writes hwf.2 hlegible.2.2 _ _ (delimits_cons (by decide)) hclose
    have hwhile := (hcond.head .while_).spaces (isGapChar_indent depth)
    have hbody := branch_writes body .branch depth hwf.1 hlegible.2.1 _ _ hwhile
    have hdo := hbody.keyword .do_ (stops_text (by decide) depth body _)
    have hword : "while (".toList = Keyword.while_.text ++ [' ', '('] := by decide
    have hfirst : "do".toList = Keyword.do_.text := by decide
    simp only [text, hword, hfirst]
    simpa [reread, tokens, lead, depthAt, Symbol.text] using hdo
  | ret id e, depth, hwf, hlegible, rest, ts, h => by
    simp only [nodes, List.forall_mem_cons] at hlegible
    have hsemi := (h.space (c := '\n') (by decide)).closed (s := .semi) (by decide)
    have hword : "return".toList = Keyword.return_.text := by decide
    simp only [text, hword]
    cases e with
    | none =>
      have hreturn := hsemi.keyword .return_ (stops_cons (by decide))
      simpa [reread, tokens, lead, Symbol.text, textOrEmpty, tokensOrNone] using hreturn
    | some e =>
      have he := Expr.text_writes (hwf e rfl) hlegible.2 _ _ (delimits_cons (by decide)) hsemi
      have hreturn := (he.space (c := ' ') (by decide)).keyword .return_ (stops_cons (by decide))
      simpa [reread, tokens, lead, Symbol.text, textOrEmpty, tokensOrNone] using hreturn
  | jump id k, depth, hwf, hlegible, rest, ts, h => by
    simpa [text, reread, tokens, lead] using k.text_writes _ _ (h.space (c := '\n') (by decide))
  | empty id, depth, hwf, hlegible, rest, ts, h => by
    have hsemi := (h.space (c := '\n') (by decide)).closed (s := .semi) (by decide)
    simpa [text, reread, tokens, lead, Symbol.text] using hsemi

theorem branch_writes : ∀ (s : Stmt) (place : Place) (depth : Nat), s.WellFormed →
    (∀ n ∈ s.nodes, n.Legible) → WritesLine (s.text place depth) s.reread.tokens
  | s, place, depth, hwf, hlegible, rest, ts, h => by
    have hline := text_writes s (s.depthAt place depth) hwf hlegible rest ts h
    rw [text_eq, List.append_assoc]
    exact hline.spaces (isGapChar_lead place depth s)

theorem textOfBody_writes : ∀ (body : List Stmt) (depth : Nat), WellFormedBody body →
    (∀ n ∈ nodesOfBody body, n.Legible) →
      WritesLine (textOfBody depth body) (tokensOfBody (rereadBody body))
  | [], depth, _, _, rest, ts, h => h
  | s :: body, depth, hwf, hlegible, rest, ts, h => by
    simp only [nodesOfBody, List.forall_mem_append] at hlegible
    have hbody := textOfBody_writes body depth hwf.2 hlegible.2 rest ts h
    have hs := text_writes s depth hwf.1 hlegible.1 _ _ hbody
    simpa [textOfBody, rereadBody, tokensOfBody] using hs.spaces (isGapChar_indent depth)

end

end Stmt

theorem Param.text_writes {p : Param} (hwf : p.WellFormed)
    (hlegible : ∀ n ∈ nodesOfSuffix p.written.array, n.Legible) : Writes p.text p.reread.tokens := by
  intro rest ts hrest h
  cases hname : p.name with
  | none =>
    simpa [text, reread, written, tokens, hname, tokensOrNone] using
      QualifiedType.text_writes hwf.1 rest ts hrest h
  | some name =>
    have hwritten : p.written = p := written_of_named fun hnone => by simp [hname] at hnone
    rw [hwritten] at hlegible
    have hplace := nameWithSuffix_writes (hwf.2.1 name hname) hwf.2.2 hlegible rest ts hrest h
    have htype := QualifiedType.text_writes hwf.1 _ _ (delimits_cons (by decide))
      (hplace.space (c := ' ') (by decide))
    simpa [text, reread, hwritten, tokens, hname, tokensOrNone] using htype

theorem Function.text_writes {f : Function} (hwf : f.WellFormed)
    (hparams : ∀ n ∈ f.written.params.flatMap fun p => nodesOfSuffix p.array, n.Legible)
    (hbody : ∀ n ∈ Stmt.nodesOfBody (f.body.getD []), n.Legible) :
    WritesLine f.text f.reread.tokens := by
  intro rest ts h
  rw [written, List.flatMap_map, List.forall_mem_flatMap] at hparams
  have hline := h.space (c := '\n') (by decide)
  have hlist : Writes (joinTexts ", ".toList (f.params.map Param.text))
      (commaTokens (f.params.map fun p => p.reread.tokens)) :=
    joinTexts_writes fun p hp => p.text_writes (hwf.2.2.1 p hp) (hparams p hp)
  -- the head of the function, whatever its end is
  have hhead : ∀ tail tailTokens, Spells tail tailTokens →
      Spells (f.returns.text ++ ' ' :: f.name.toList ++
          '(' :: joinTexts ", ".toList (f.params.map Param.text) ++ ')' :: tail)
        (f.returns.tokens ++ .ident f.name :: .symbol .lparen ::
          (commaTokens (f.params.map fun p => p.reread.tokens) ++
            .symbol .rparen :: tailTokens)) := by
    intro tail tailTokens htail
    have hclose := htail.closed (s := .rparen) (by decide)
    have hopen := (hlist _ _ (delimits_cons (by decide)) hclose).closed (s := .lparen) (by decide)
    have hname := (hopen.ident hwf.2.1 (stops_cons (by decide))).space (c := ' ') (by decide)
    have htype := QualifiedType.text_writes hwf.1 _ _ (delimits_cons (by decide)) hname
    simpa [Symbol.text] using htype
  cases hdefined : f.body with
  | none =>
    have hsemi := hline.closed (s := .semi) (by decide)
    simpa [text, reread, tokens, bodyTokens, hdefined, Symbol.text, Function.comp_def] using
      hhead _ _ hsemi
  | some body =>
    rw [hdefined] at hbody
    have hclose := hline.closed (s := .rbrace) (by decide)
    have hlines := Stmt.textOfBody_writes body 1 (hwf.2.2.2.2 body hdefined) hbody _ _ hclose
    have hopen := (hlines.space (c := '\n') (by decide)).closed (s := .lbrace) (by decide)
    simpa [text, reread, tokens, bodyTokens, hdefined, Symbol.text, Function.comp_def] using
      hhead _ _ (hopen.space (c := ' ') (by decide))

theorem BlockMember.text_writes {m : BlockMember} (hwf : m.WellFormed)
    (hlegible : ∀ n ∈ nodesOfSuffix m.array, n.Legible) : WritesLine m.text m.reread.tokens := by
  intro rest ts h
  have hsemi := (h.space (c := '\n') (by decide)).closed (s := .semi) (by decide)
  have hname := nameWithSuffix_writes hwf.2.1 hwf.2.2 hlegible _ _ (delimits_cons (by decide)) hsemi
  have htype := QualifiedType.text_writes hwf.1 _ _ (delimits_cons (by decide))
    (hname.space (c := ' ') (by decide))
  simpa [text, reread, tokens, Symbol.text] using htype.spaces (isGapChar_indent 1)

theorem InterfaceBlock.text_writes {b : InterfaceBlock} (hwf : b.WellFormed)
    (hlegible : ∀ n ∈ b.members.flatMap fun m => nodesOfSuffix m.array, n.Legible) :
    WritesLine b.text
      (InterfaceBlock.tokens { b with members := b.members.map BlockMember.reread }) := by
  intro rest ts h
  rw [List.forall_mem_flatMap] at hlegible
  have hsemi := (h.space (c := '\n') (by decide)).closed (s := .semi) (by decide)
  have hinstance : Spells (textOrEmpty (fun (n : String) => ' ' :: n.toList) b.instanceName ++
        (Symbol.semi.text ++ '\n' :: rest))
      (tokensOrNone (fun n => [.ident n]) b.instanceName ++ .symbol .semi :: ts) := by
    cases hname : b.instanceName with
    | none => exact hsemi
    | some name =>
      exact (hsemi.ident (hwf.2.2.2.2 name hname) (stops_cons (by decide))).space (by decide)
  have hclose := hinstance.closed (s := .rbrace) (by decide)
  have hmembers := WritesLine.flatMap
    (fun m hm => BlockMember.text_writes (hwf.2.2.2.1 m hm) (hlegible m hm)) _ _ hclose
  have hopen := (hmembers.space (c := '\n') (by decide)).closed (s := .lbrace) (by decide)
  have hname := (hopen.space (c := ' ') (by decide)).ident hwf.2.2.1 (stops_cons (by decide))
  simpa [text, tokens, Symbol.text, List.flatMap_map] using qualifiers_write hwf.2.1 _ _ hname

theorem qualifierList_writes {qs : List Qualifier} (hwf : ∀ q ∈ qs, q.WellFormed) :
    Writes (joinTexts [' '] (qs.map Qualifier.text)) (qs.flatMap Qualifier.tokens) := by
  induction qs with
  | nil => exact fun rest ts _ h => h
  | cons q qs ih =>
    intro rest ts hrest h
    have hq := Qualifier.text_writes (hwf q List.mem_cons_self)
    have hqs := ih (fun p hp => hwf p (List.mem_cons_of_mem _ hp)) rest ts hrest h
    cases qs with
    | nil => simpa [joinTexts] using hq rest ts hrest h
    | cons p ps =>
      have hfirst := hq _ _ (delimits_cons (by decide)) (hqs.space (c := ' ') (by decide))
      simpa [joinTexts] using hfirst

theorem Declaration.text_writes {d : Declaration} (hwf : d.WellFormed)
    (hlegible : ∀ n ∈ d.written.nodes, n.Legible) : WritesLine d.text d.reread.tokens := by
  intro rest ts h
  have hline := h.space (c := '\n') (by decide)
  have hsemi := hline.closed (s := .semi) (by decide)
  cases d with
  | directive id line =>
    have htext : (directive id line).text = line.toList ++ ['\n'] := rfl
    simpa [htext, reread, tokens] using hline.directive hwf
  | precision id p t =>
    have htype := t.text_writes _ _ (delimits_cons (by decide)) hsemi
    have hp := (htype.space (c := ' ') (by decide)).keyword p.keyword (stops_cons (by decide))
    have hfirst := (hp.space (c := ' ') (by decide)).keyword .precision (stops_cons (by decide))
    have hword : "precision ".toList = Keyword.precision.text ++ [' '] := by decide
    have htext : (precision id p t).text =
        "precision ".toList ++ p.text ++ ' ' :: t.text ++ ";\n".toList := rfl
    rw [p.keyword_text] at hfirst
    rw [htext, hword]
    simpa [reread, tokens, Symbol.text] using hfirst
  | globals id vars =>
    have htext : (globals id vars).text = vars.text ++ ['\n'] := rfl
    simp only [written, nodes, List.forall_mem_cons] at hlegible
    simpa [htext, reread, tokens] using Variables.text_writes hwf hlegible.2 _ _ hline
  | interfaceBlock id b =>
    simp only [written, nodes, List.forall_mem_cons] at hlegible
    exact b.text_writes hwf hlegible.2 rest ts h
  | qualifiers id list =>
    have htext : (qualifiers id list).text =
        joinTexts [' '] (list.map Qualifier.text) ++ ";\n".toList := rfl
    simpa [htext, reread, tokens, Symbol.text] using
      qualifierList_writes hwf.2 _ _ (delimits_cons (by decide)) hsemi
  | function id f =>
    simp only [written, nodes, List.forall_mem_cons, List.forall_mem_append] at hlegible
    exact f.text_writes hwf hlegible.2.1 hlegible.2.2 rest ts h

/-- The text of a shader is cut into the tokens of what is read from it, without errors. -/
theorem Shader.lex_text {s : Shader} (hwf : s.WellFormed)
    (hlegible : ∀ n ∈ s.written.nodes, n.Legible) :
    (lex s.text).tokens.map Prod.fst = s.reread.tokens ∧ (lex s.text).errors = [] := by
  rw [nodes, written, List.flatMap_map, List.forall_mem_flatMap] at hlegible
  have hlines : WritesLine s.text s.reread.tokens := by
    rw [tokens, reread, List.flatMap_map]
    exact WritesLine.flatMap fun d hd => d.text_writes (hwf d hd) (hlegible d hd)
  simpa using (hlines [] [] .nil).lex

end ShaderLift
