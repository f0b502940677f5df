import Mathlib
import ShaderLift.Proofs.LongestMatch

/-!
Every byte of a source is accounted for. The pieces tile the text, so the spans of the tokens and of
the errors are disjoint and in order, and what is left between them is white space and comments.
-/

namespace ShaderLift

theorem Text.byteLength_append (a b : List Char) :
    Text.byteLength (a ++ b) = Text.byteLength a + Text.byteLength b := by
  induction a with
  | nil => simp [Text.byteLength]
  | cons c a ih => simp [Text.byteLength, ih, Nat.add_assoc]

theorem Text.byteLength_pos {cs : List Char} (h : cs ≠ []) : 0 < Text.byteLength cs := by
  cases cs with
  | nil => exact absurd rfl h
  | cons c cs =>
    have := c.utf8Size_pos
    rw [Text.byteLength]
    omega

/-- The span cuts the source before and after whole characters, with the slice between the cuts. -/
structure Span.Cuts (span : Span) (source before slice after : List Char) : Prop where
  text : source = before ++ (slice ++ after)
  start : span.start = Text.byteLength before
  stop : span.stop = Text.byteLength (before ++ slice)

namespace Lexer

theorem Skipped.append {gap more after : List Char} (h : Skipped gap (more ++ after))
    (hmore : Skipped more after) : Skipped (gap ++ more) after := by
  generalize hrest : more ++ after = rest at h
  induction h with
  | nil => exact hmore
  | blank hc _ ih => exact .blank hc (ih hrest)
  | @line body gap rest hbody hend _ ih =>
    rw [List.cons_append, List.cons_append, List.append_assoc]
    refine .line hbody ?_ (ih hrest)
    rw [List.append_assoc, hrest]
    exact hend
  | block hbody _ ih =>
    simp only [List.cons_append, List.append_assoc]
    exact .block hbody (ih hrest)

/-- The pieces make up the text from byte `start` on, one after the other, and each of them is what
it should be. -/
inductive Tiles : Nat → List Char → List (Piece × Span × List Char) → Prop
  | nil {start : Nat} : Tiles start [] []
  | cons {start : Nat} {p : Piece} {slice rest : List Char} {ps : List (Piece × Span × List Char)}
      (hne : slice ≠ []) (hfits : p.Fits slice rest)
      (h : Tiles (start + Text.byteLength slice) rest ps) :
      Tiles start (slice ++ rest) ((p, ⟨start, start + Text.byteLength slice⟩, slice) :: ps)

theorem piecesFrom_tiles {fuel : Nat} (start : Nat) {cs : List Char} (hfuel : cs.length ≤ fuel) :
    Tiles start cs (piecesFrom fuel start cs) := by
  induction fuel generalizing start cs with
  | zero =>
    obtain rfl := List.length_eq_zero_iff.1 (Nat.le_zero.1 hfuel)
    exact .nil
  | succ fuel ih =>
    by_cases hne : cs = []
    · subst hne
      exact .nil
    · obtain ⟨hslice, rest, hrest, hfits⟩ := piece_found hne
      have hpiece : piece ((piece cs).2 ++ rest) = ((piece cs).1, (piece cs).2) := by rw [← hrest]
      have hlength := congrArg List.length hrest
      have hpos := List.length_pos_iff.2 hslice
      rw [List.length_append] at hlength
      rw [hrest, piecesFrom_append fuel start hslice hpiece]
      exact .cons hslice hfits (ih _ (by omega))

def marks (ps : List (Piece × Span × List Char)) : List Span :=
  (ps.filter fun x => x.1 ≠ .gap).map fun x => x.2.1

theorem marks_gap (span : Span) (slice : List Char) (ps : List (Piece × Span × List Char)) :
    marks ((.gap, span, slice) :: ps) = marks ps := rfl

theorem marks_cons {p : Piece} (hp : p ≠ .gap) (span : Span) (slice : List Char)
    (ps : List (Piece × Span × List Char)) :
    marks ((p, span, slice) :: ps) = span :: marks ps := by
  rw [marks, List.filter_cons_of_pos (by simpa using hp), List.map_cons, marks]

theorem tokenOf_eq_some {x : Piece × Span × List Char} {t : Token × Span} (h : tokenOf x = some t) :
    x.1 = .token t.1 ∧ x.2.1 = t.2 := by
  obtain ⟨p, span, slice⟩ := x
  cases p with
  | token word =>
    obtain rfl := Option.some.inj h
    exact ⟨rfl, rfl⟩
  | gap => cases h
  | error => cases h

theorem errorOf_eq_some {x : Piece × Span × List Char} {e : LexError} (h : errorOf x = some e) :
    x.1 = .error ∧ x.2 = (e.span, e.slice) := by
  obtain ⟨p, span, slice⟩ := x
  cases p with
  | error =>
    obtain rfl := Option.some.inj h
    exact ⟨rfl, rfl⟩
  | gap => cases h
  | token word => cases h

theorem marks_perm (ps : List (Piece × Span × List Char)) :
    (marks ps).Perm
      ((ps.filterMap tokenOf).map Prod.snd ++ (ps.filterMap errorOf).map LexError.span) := by
  induction ps with
  | nil => exact .nil
  | cons x ps ih =>
    obtain ⟨p, span, slice⟩ := x
    cases p with
    | gap => exact ih
    | token t => exact ih.cons span
    | error => exact (ih.cons span).trans List.perm_middle.symm

/-- From one byte of the source to the other there is white space and comments only. -/
def SkippedBetween (source : List Char) (start stop : Nat) : Prop :=
  ∃ before gap after, (⟨start, stop⟩ : Span).Cuts source before gap after ∧ Skipped gap after

namespace Tiles

variable {start : Nat} {cs before source : List Char} {ps : List (Piece × Span × List Char)}

theorem start_le (h : Tiles start cs ps) : ∀ x ∈ ps, start ≤ x.2.1.start := by
  induction h with
  | nil => simp
  | cons hne hfits h ih =>
    refine List.forall_mem_cons.2 ⟨Nat.le_refl _, fun x hx => ?_⟩
    have := ih x hx
    omega

theorem ordered (h : Tiles start cs ps) : ps.Pairwise fun x y => x.2.1.stop ≤ y.2.1.start := by
  induction h with
  | nil => exact .nil
  | cons hne hfits h ih => exact .cons h.start_le ih

/-- Each piece is cut out of the source where its span says. -/
theorem cuts (h : Tiles start cs ps) (hsource : source = before ++ cs)
    (hstart : start = Text.byteLength before) : ∀ x ∈ ps, ∃ front after,
      x.2.1.Cuts source front x.2.2 after ∧ x.2.2 ≠ [] ∧ x.1.Fits x.2.2 after := by
  induction h generalizing before with
  | nil => simp
  | @cons start p slice rest ps hne hfits h ih =>
    have hstop : start + Text.byteLength slice = Text.byteLength (before ++ slice) := by
      rw [Text.byteLength_append, hstart]
    refine List.forall_mem_cons.2 ⟨⟨before, rest, ⟨hsource, hstart, hstop⟩, hne, hfits⟩, ?_⟩
    exact ih (by rw [hsource, List.append_assoc]) hstop

/-- What is between the tokens and errors is skipped. The first gap can have begun with a text
before these pieces. -/
theorem gaps {gap : List Char} (h : Tiles start cs ps) (hsource : source = before ++ (gap ++ cs))
    (hstart : start = Text.byteLength (before ++ gap)) (hgap : Skipped gap cs) :
    List.Forall₂ (SkippedBetween source) (Text.byteLength before :: (marks ps).map Span.stop)
      ((marks ps).map Span.start ++ [Text.byteLength source]) := by
  induction h generalizing before gap with
  | nil =>
    refine .cons ⟨before, gap, [], ⟨hsource, rfl, ?_⟩, hgap⟩ .nil
    rw [hsource, List.append_nil]
  | @cons start p slice rest ps hne hfits h ih =>
    by_cases hp : p = .gap
    · subst hp
      have hlonger : source = before ++ (gap ++ slice ++ rest) := by
        rw [hsource, List.append_assoc]
      rw [marks_gap]
      refine ih hlonger ?_ (hgap.append hfits)
      rw [hstart, ← Text.byteLength_append, List.append_assoc]
    · have hstop : start + Text.byteLength slice = Text.byteLength (before ++ gap ++ slice) := by
        rw [hstart, ← Text.byteLength_append]
      rw [marks_cons hp, List.map_cons, List.map_cons, List.cons_append]
      refine .cons ⟨before, gap, slice ++ rest, ⟨hsource, rfl, hstart⟩, hgap⟩ ?_
      have hnext : source = before ++ gap ++ slice ++ ([] ++ rest) := by
        rw [hsource]
        simp
      simp only [hstop]
      exact ih hnext (by rw [List.append_nil, hstop]) .nil

theorem marks_ordered (h : Tiles start cs ps) :
    (marks ps).Pairwise fun a b => a.stop ≤ b.start :=
  List.pairwise_map.2 (h.ordered.filter _)

theorem tokens_ordered (h : Tiles start cs ps) :
    (ps.filterMap tokenOf).Pairwise fun a b => a.2.stop ≤ b.2.start := by
  refine h.ordered.filterMap _ fun x y hxy a ha b hb => ?_
  rw [← (tokenOf_eq_some ha).2, ← (tokenOf_eq_some hb).2]
  exact hxy

theorem errors_ordered (h : Tiles start cs ps) :
    (ps.filterMap errorOf).Pairwise fun a b => a.span.stop ≤ b.span.start := by
  refine h.ordered.filterMap _ fun x y hxy a ha b hb => ?_
  rw [(errorOf_eq_some ha).2, (errorOf_eq_some hb).2] at hxy
  exact hxy

theorem marks_cut (h : Tiles 0 source ps) : ∀ span ∈ marks ps, span.start < span.stop ∧
    ∃ before slice after, span.Cuts source before slice after := by
  intro span hspan
  obtain ⟨x, hx, rfl⟩ := List.mem_map.1 hspan
  obtain ⟨before, after, hcut, hne, -⟩ := h.cuts (List.nil_append _).symm rfl x
    (List.mem_of_mem_filter hx)
  refine ⟨?_, before, x.2.2, after, hcut⟩
  have hpos := Text.byteLength_pos hne
  rw [hcut.start, hcut.stop, Text.byteLength_append]
  omega

theorem tokens_fit (h : Tiles 0 source ps) : ∀ t ∈ ps.filterMap tokenOf, ∃ before slice after,
    t.2.Cuts source before slice after ∧ slice ∈ t.1.pattern ∧ Longest slice (slice ++ after) := by
  intro t ht
  obtain ⟨x, hx, htoken⟩ := List.mem_filterMap.1 ht
  obtain ⟨hkind, hspan⟩ := tokenOf_eq_some htoken
  obtain ⟨before, after, hcut, -, hfits⟩ := h.cuts (List.nil_append _).symm rfl x hx
  rw [hkind] at hfits
  rw [hspan] at hcut
  exact ⟨before, x.2.2, after, hcut, hfits⟩

theorem errors_fit (h : Tiles 0 source ps) : ∀ e ∈ ps.filterMap errorOf, ∃ before after,
    e.span.Cuts source before e.slice after ∧ Misfit e.slice after := by
  intro e he
  obtain ⟨x, hx, herror⟩ := List.mem_filterMap.1 he
  obtain ⟨hkind, hplace⟩ := errorOf_eq_some herror
  obtain ⟨before, after, hcut, -, hfits⟩ := h.cuts (List.nil_append _).symm rfl x hx
  rw [hkind, hplace] at hfits
  rw [hplace] at hcut
  exact ⟨before, after, hcut, hfits⟩

end Tiles

end Lexer

def Lexed.spans (lexed : Lexed) : List Span :=
  lexed.tokens.map Prod.snd ++ lexed.errors.map LexError.span

/-- Lexing accounts for every byte of the source. In source order, the spans of the tokens and the
errors are disjoint stretches of whole characters, with white space and comments before, between and
after them. A token's slice has the token's pattern and is the longest word of any pattern there.
An error's slice is a stray character, a literal out of range or a comment that is not closed. -/
theorem lex_accounts (source : List Char) :
    (∃ spans : List Span, spans.Perm (lex source).spans ∧
      spans.Pairwise (fun a b => a.stop ≤ b.start) ∧
      (∀ span ∈ spans, span.start < span.stop ∧
        ∃ before slice after, span.Cuts source before slice after) ∧
      List.Forall₂ (Lexer.SkippedBetween source) (0 :: spans.map Span.stop)
        (spans.map Span.start ++ [Text.byteLength source])) ∧
    (lex source).tokens.Pairwise (fun a b => a.2.stop ≤ b.2.start) ∧
    (lex source).errors.Pairwise (fun a b => a.span.stop ≤ b.span.start) ∧
    (∀ t ∈ (lex source).tokens, ∃ before slice after, t.2.Cuts source before slice after ∧
      slice ∈ t.1.pattern ∧ Lexer.Longest slice (slice ++ after)) ∧
    ∀ e ∈ (lex source).errors, ∃ before after, e.span.Cuts source before e.slice after ∧
      Lexer.Misfit e.slice after := by
  have htiles := Lexer.piecesFrom_tiles 0 (Nat.le_refl source.length)
  have hgaps := htiles.gaps (List.nil_append source).symm rfl .nil
  exact ⟨⟨_, Lexer.marks_perm _, htiles.marks_ordered, htiles.marks_cut, hgaps⟩,
    htiles.tokens_ordered, htiles.errors_ordered, htiles.tokens_fit, htiles.errors_fit⟩

end ShaderLift
