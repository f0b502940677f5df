import Mathlib
import ShaderLift.Proofs.TokenPatterns
import ShaderLift.Proofs.TreeText

/-!
The texts of tokens in a row, with one blank between every two. A blank goes on with no token but a
directive, so each token ends where its text ends and is read from it again.
-/

namespace ShaderLift

def Token.spaced (ts : List Token) : List Char := [' '].intercalate (ts.map text)

/-- The token is read from its own text. A number with a sign is read as two tokens, a name that is a
keyword or a truth value as that one, and a directive takes in what comes after it on the line. -/
def Token.Legible : Token → Prop
  | .int v => 0 ≤ v
  | .float v => v.isFinite ∧ v.negative = false
  | .ident name => name.toList ∈ Pattern.name ∧ (∀ k : Keyword, k.text ≠ name.toList) ∧
      ∀ b : Bool, (Token.bool b).text ≠ name.toList
  | .directive _ => False
  | _ => True

theorem Token.spaced_cons (t : Token) (ts : List Token) :
    spaced (t :: ts) = t.text ++ if ts = [] then [] else ' ' :: spaced ts := by
  cases ts with
  | nil => simp [spaced, List.intercalate]
  | cons u us => simp [spaced, List.intercalate]

theorem Token.Legible.properName {name : String} (h : (Token.ident name).Legible) :
    ProperName name := by
  obtain ⟨hpattern, hkeyword, hbool⟩ := h
  obtain ⟨c, cs, hname, hc, hcs⟩ := Pattern.oneOf_mul.1 hpattern
  have hnone : Keyword.ofText? name.toList = none :=
    List.find?_eq_none.2 fun k _ hk => hkeyword k (of_decide_eq_true hk)
  have htrue : name.toList ≠ "true".toList := (hbool true).symm
  have hfalse : name.toList ≠ "false".toList := (hbool false).symm
  refine ⟨?_, ?_, ?_⟩
  · rw [hname]
    exact hc
  · rw [hname, List.all_cons, Lexer.isIdentChar_of_isIdentStart hc, Bool.true_and]
    exact List.all_eq_true.2 (Pattern.mem_oneOf_kstar.1 hcs)
  · simp only [Lexer.word, hnone, if_neg htrue, if_neg hfalse, String.ofList_toList]

namespace Lexer

theorem merges_blank (s : Symbol) : merges s ' ' = false := by
  cases s <;> decide

/-- What is left after a token: nothing, or a blank and more. -/
theorem Spells.legible {t : Token} (ht : t.Legible) {rest : List Char} {ts : List Token}
    (hrest : ∀ c ∈ rest.head?, c = ' ') (h : Spells rest ts) :
    Spells (t.text ++ rest) (t :: ts) := by
  have hstops : Stops isIdentChar rest := fun c hc => by
    rw [hrest c hc]
    decide
  cases t with
  | keyword k => exact h.keyword k hstops
  | symbol s =>
    refine h.symbol s fun c hc => ?_
    rw [hrest c hc]
    exact merges_blank s
  | bool b => exact Expr.bool_spells b hstops h
  | int v =>
    rw [int_text ht]
    refine h.int v hstops fun hdot => ?_
    exact absurd (hrest '.' hdot) (by decide)
  | uint v => exact h.uint v
  | float v => exact h.float ht hstops
  | ident name => exact h.ident ht.properName hstops
  | directive text => exact ht.elim

theorem spells_spaced {ts : List Token} (hts : ∀ t ∈ ts, t.Legible) :
    Spells (Token.spaced ts) ts := by
  induction ts with
  | nil => exact Spells.nil
  | cons t ts ih =>
    obtain ⟨ht, hmore⟩ := List.forall_mem_cons.1 hts
    rw [Token.spaced_cons]
    split
    · next hnil =>
      subst hnil
      exact Spells.nil.legible ht (by simp)
    · exact ((ih hmore).space (by decide)).legible ht (by simp)

end Lexer

/-- Tokens that can be told from their texts are read again from these texts with blanks between
them, all of them in their order and without errors. -/
theorem lex_spaced (ts : List Token) (hts : ∀ t ∈ ts, t.Legible) :
    (lex (Token.spaced ts)).tokens.map Prod.fst = ts ∧ (lex (Token.spaced ts)).errors = [] :=
  (Lexer.spells_spaced hts).lex

/-- Tokens that run into each other without the blanks: signs, the marks of comments, numbers before
points and names, a keyword before a name, and numbers in both notations. -/
def crowdedTokens : List Token :=
  [.symbol .plus, .symbol .inc, .symbol .slash, .symbol .star, .int 0, .symbol .dot, .int 2147483647,
    .ident "x1F", .uint 4294967295, .float ⟨0x3727c5ac⟩, .float ⟨0x3dcccccd⟩, .keyword .in_,
    .ident "out_", .bool true, .ident "e5"]

theorem crowdedTokens_reread :
    (∀ t ∈ crowdedTokens, t.Legible) ∧
    Token.spaced crowdedTokens =
      "+ ++ / * 0 . 2147483647 x1F 4294967295u 1e-5 0.1 in out_ true e5".toList ∧
    (lex (Token.spaced crowdedTokens)).tokens.map Prod.fst = crowdedTokens ∧
    (lex (Token.spaced crowdedTokens)).errors = [] := by
  have hname (c : Char) (cs : List Char) (hc : Lexer.isIdentStart c) (hcs : cs.all Lexer.isIdentChar) :
      c :: cs ∈ Pattern.name :=
    Pattern.oneOf_mul.2 ⟨c, cs, rfl, hc, Pattern.mem_oneOf_kstar.2 (List.all_eq_true.1 hcs)⟩
  have hsign (v : Int32) (hv : 0 ≤ v) : (Token.int v).Legible := hv
  have hfinite (v : Single) (hv : v.isFinite ∧ v.negative = false) : (Token.float v).Legible := hv
  have hlegible : ∀ t ∈ crowdedTokens, t.Legible := by
    simp only [crowdedTokens, List.forall_mem_cons]
    refine ⟨trivial, trivial, trivial, trivial, hsign 0 (by decide), trivial,
      hsign 2147483647 (by decide), ?_, trivial, hfinite _ (by decide), hfinite _ (by decide), trivial,
      ?_, trivial, ?_, List.forall_mem_nil _⟩
    · exact ⟨hname 'x' "1F".toList (by decide) (by decide), fun k => by cases k <;> decide, by decide⟩
    · exact ⟨hname 'o' "ut_".toList (by decide) (by decide), fun k => by cases k <;> decide, by decide⟩
    · exact ⟨hname 'e' "5".toList (by decide) (by decide), fun k => by cases k <;> decide, by decide⟩
  exact ⟨hlegible, by decide, lex_spaced crowdedTokens hlegible⟩

end ShaderLift
