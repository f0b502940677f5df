import Mathlib
import ShaderLift.Proofs.NumeralText
import ShaderLift.Proofs.Spelling

/-!
Cutting a text into tokens. The tokens are ones that a source can hold, and each of them is cut off
the front of a text that starts with its own text, provided that what comes next ends it.
-/

namespace ShaderLift

namespace Lexer

theorem properDirective_trimEnd {cs : List Char} :
    ProperDirective (String.ofList (Text.trimEnd (('#' :: cs).takeWhile (· ≠ '\n')))) := by
  have htrim : Text.trimEnd = List.rdropWhile Text.isBlank := rfl
  have hline : ('#' :: cs).takeWhile (· ≠ '\n') = '#' :: cs.takeWhile (· ≠ '\n') := by simp
  have hfront := List.rdropWhile_prefix Text.isBlank (('#' :: cs).takeWhile (· ≠ '\n'))
  refine ⟨?_, ?_, ?_⟩
  · rw [String.toList_ofList, htrim]
    rw [hline] at hfront ⊢
    cases hr : ('#' :: cs.takeWhile (· ≠ '\n')).rdropWhile Text.isBlank with
    | nil =>
      rw [List.rdropWhile_eq_nil_iff] at hr
      exact absurd (hr '#' List.mem_cons_self) (by decide)
    | cons c rest =>
      rw [hr, List.cons_prefix_cons] at hfront
      rw [hfront.1, List.head?_cons]
  · rw [String.toList_ofList, htrim]
    intro hmem
    have := List.mem_takeWhile_imp (hfront.subset hmem)
    simp at this
  · rw [String.toList_ofList, htrim, List.rdropWhile_idempotent]

theorem isIdentChar_of_isIdentStart {c : Char} (h : isIdentStart c) : isIdentChar c := by
  simp only [isIdentStart, isIdentChar, Char.isAlphanum, Bool.or_eq_true] at h ⊢
  tauto

theorem properName_word {cs : List Char} {c : Char} {name : String} (hc : isIdentStart c)
    (h : word ((c :: cs).takeWhile isIdentChar) = .ident name) : ProperName name := by
  have hstart := isIdentChar_of_isIdentStart hc
  have hname : name = String.ofList ((c :: cs).takeWhile isIdentChar) := by
    unfold word at h
    split at h
    · simp at h
    · split at h
      · simp at h
      · split at h
        · simp at h
        · simpa using h.symm
  subst hname
  refine ⟨?_, ?_, ?_⟩
  · simp [hstart, hc]
  · rw [String.toList_ofList]
    exact List.all_takeWhile
  · rw [String.toList_ofList, h]

/-- The piece is a proper token, if it is a token. -/
def Piece.Proper : Piece → Prop
  | token t => t.Proper
  | _ => True

theorem integerPiece_proper (digits : List Char) (unsigned : Bool) :
    (integerPiece digits unsigned).Proper := by
  unfold integerPiece
  split
  · cases unsigned <;> trivial
  · trivial

theorem floatPiece_proper (whole fraction exponent : List Char) :
    (floatPiece whole fraction exponent).Proper := by
  unfold floatPiece
  split
  · next x hx =>
    simp only [Single.ofDecimal?] at hx
    split at hx
    · next hfinite =>
      obtain rfl := Option.some.inj hx
      refine ⟨hfinite, ?_⟩
      have hle := Numeral.BinaryFormat.single.ofDecimal_le (Numeral.value 10 (whole ++ fraction))
        (exponentValue exponent - fraction.length)
      have hinfinity : Numeral.BinaryFormat.single.infinity = 2139095040 := rfl
      have hsign : Numeral.BinaryFormat.single.signBit = 2147483648 := rfl
      simp only [Single.negative, Single.ofPattern, Bool.false_eq_true, if_false, hsign,
        decide_eq_false_iff_not, UInt32.toNat_ofNat']
      omega
    · simp at hx
  · trivial

theorem number_proper (cs : List Char) : (number cs).1.Proper := by
  unfold number
  simp only
  split
  · exact integerPiece_proper _ _
  · split
    · exact floatPiece_proper _ _ _
    · split
      · exact integerPiece_proper _ _
      · exact floatPiece_proper _ _ _

theorem word_proper {cs : List Char} {c : Char} (hc : isIdentStart c) :
    (word ((c :: cs).takeWhile isIdentChar)).Proper := by
  cases h : word ((c :: cs).takeWhile isIdentChar) with
  | ident name => exact properName_word hc h
  | float v | directive text =>
    simp only [word] at h
    split at h
    · cases h
    · split_ifs at h
  | _ => trivial

theorem symbol_proper (cs : List Char) : (symbol cs).1.Proper := by
  unfold symbol
  split
  · trivial
  · split <;> trivial

theorem piece_proper (cs : List Char) : (piece cs).1.Proper := by
  unfold piece
  split
  · trivial
  · trivial
  · split <;> trivial
  · split_ifs with hgap hhash hstart hdigit
    · trivial
    · subst hhash
      exact properDirective_trimEnd
    · exact word_proper hstart
    · exact number_proper _
    · exact symbol_proper _

theorem piecesFrom_proper (fuel start : Nat) (cs : List Char) :
    ∀ p ∈ piecesFrom fuel start cs, p.1.Proper := by
  induction fuel generalizing start cs with
  | zero => simp [piecesFrom]
  | succ fuel ih =>
    unfold piecesFrom
    split
    · simp
    · intro p hp
      rcases List.mem_cons.1 hp with rfl | hp
      · exact piece_proper cs
      · exact ih _ _ p hp

end Lexer

theorem lex_proper (source : List Char) : ∀ t ∈ (lex source).tokens, t.1.Proper := by
  intro t ht
  obtain ⟨⟨p, span, slice⟩, hp, htoken⟩ := List.mem_filterMap.1 ht
  have hproper := Lexer.piecesFrom_proper _ _ _ _ hp
  cases p with
  | token word =>
    obtain rfl := Option.some.inj htoken
    exact hproper
  | _ => simp [Lexer.tokenOf] at htoken

namespace Lexer

/-- The text is cut into the tokens, with gaps between them and nothing else. -/
inductive Spells : List Char → List Token → Prop
  | nil : Spells [] []
  | gap {slice rest : List Char} {ts : List Token} (hne : slice ≠ [])
      (hpiece : piece (slice ++ rest) = (.gap, slice)) (h : Spells rest ts) :
      Spells (slice ++ rest) ts
  | token {slice rest : List Char} {t : Token} {ts : List Token} (hne : slice ≠ [])
      (hpiece : piece (slice ++ rest) = (.token t, slice)) (h : Spells rest ts) :
      Spells (slice ++ rest) (t :: ts)

theorem piecesFrom_append {slice rest : List Char} {p : Piece} (fuel start : Nat)
    (hne : slice ≠ []) (hpiece : piece (slice ++ rest) = (p, slice)) :
    piecesFrom (fuel + 1) start (slice ++ rest) =
      (p, ⟨start, start + Text.byteLength slice⟩, slice) ::
        piecesFrom fuel (start + Text.byteLength slice) rest := by
  simp [piecesFrom, hne, hpiece]

theorem Spells.piecesFrom {cs : List Char} {ts : List Token} (h : Spells cs ts) {fuel : Nat}
    (start : Nat) (hfuel : cs.length ≤ fuel) :
    ((piecesFrom fuel start cs).filterMap tokenOf).map Prod.fst = ts ∧
      (piecesFrom fuel start cs).filterMap errorOf = [] := by
  induction h generalizing fuel start with
  | nil => cases fuel <;> simp [Lexer.piecesFrom]
  | @gap slice rest ts hne hpiece h ih =>
    have hlen := List.length_pos_iff.2 hne
    rw [List.length_append] at hfuel
    obtain ⟨fuel, rfl⟩ : ∃ k, fuel = k + 1 := ⟨fuel - 1, by omega⟩
    rw [piecesFrom_append fuel start hne hpiece, List.filterMap_cons_none rfl,
      List.filterMap_cons_none rfl]
    exact ih _ (by omega)
  | @token slice rest t ts hne hpiece h ih =>
    have hlen := List.length_pos_iff.2 hne
    rw [List.length_append] at hfuel
    obtain ⟨fuel, rfl⟩ : ∃ k, fuel = k + 1 := ⟨fuel - 1, by omega⟩
    obtain ⟨htokens, herrors⟩ := ih (start + Text.byteLength slice) (Nat.le_of_lt_succ (by omega : rest.length < fuel + 1))
    rw [piecesFrom_append fuel start hne hpiece]
    exact ⟨congrArg (t :: ·) htokens, herrors⟩

theorem Spells.lex {cs : List Char} {ts : List Token} (h : Spells cs ts) :
    (lex cs).tokens.map Prod.fst = ts ∧ (lex cs).errors = [] :=
  h.piecesFrom 0 (Nat.le_refl _)

theorem piece_cons {c : Char} (hc : c ≠ '/') (rest : List Char) :
    piece (c :: rest) =
      if isGapChar c then (.gap, (c :: rest).takeWhile isGapChar)
      else if c = '#' then
        (.token (.directive (String.ofList (Text.trimEnd ((c :: rest).takeWhile (· ≠ '\n'))))),
          (c :: rest).takeWhile (· ≠ '\n'))
      else if isIdentStart c then
        (.token (word ((c :: rest).takeWhile isIdentChar)), (c :: rest).takeWhile isIdentChar)
      else if c.isDigit || (c = '.' && (rest.head?.any Char.isDigit)) then number (c :: rest)
      else symbol (c :: rest) := by
  unfold piece
  split
  · next h => cases h
  · next h => exact absurd (List.cons.inj h).1 hc
  · next h => exact absurd (List.cons.inj h).1 hc
  · next h =>
    obtain ⟨rfl, rfl⟩ := List.cons.inj h
    rfl

theorem piece_gap {c : Char} (hc : isGapChar c) (rest : List Char) :
    piece (c :: rest) = (.gap, (c :: rest).takeWhile isGapChar) := by
  have hslash : c ≠ '/' := by
    rintro rfl
    exact absurd hc (by decide)
  rw [piece_cons hslash, if_pos hc]

theorem Spells.dropGap {cs : List Char} {ts : List Token} (h : Spells cs ts) :
    Spells (cs.dropWhile isGapChar) ts := by
  cases hcs : cs with
  | nil =>
    rw [hcs] at h
    exact h
  | cons d more =>
    by_cases hd : isGapChar d
    · have hpiece := piece_gap hd more
      rw [← hcs] at hpiece ⊢
      have hsplit := List.takeWhile_append_dropWhile (p := isGapChar) (l := cs)
      cases h with
      | nil => cases hcs
      | @gap slice rest _ _ hp h =>
        obtain ⟨-, hslice⟩ := Prod.mk.inj (hp.symm.trans hpiece)
        have hrest : (slice ++ rest).dropWhile isGapChar = rest := by
          rw [← hslice] at hsplit
          exact List.append_cancel_left hsplit
        rw [hrest]
        exact h
      | token _ hp _ => cases (Prod.mk.inj (hp.symm.trans hpiece)).1
    · rw [List.dropWhile_cons_of_neg hd, ← hcs]
      exact h

/-- A gap before a text adds nothing, also where the text starts with a gap itself. -/
theorem Spells.space {c : Char} {cs : List Char} {ts : List Token} (hc : isGapChar c)
    (h : Spells cs ts) : Spells (c :: cs) ts := by
  have hpiece := piece_gap hc cs
  rw [List.takeWhile_cons_of_pos hc] at hpiece
  have hshape : c :: cs = (c :: cs.takeWhile isGapChar) ++ cs.dropWhile isGapChar := by
    rw [List.cons_append, List.takeWhile_append_dropWhile]
  rw [hshape] at hpiece ⊢
  exact Spells.gap (by simp) hpiece h.dropGap

theorem Spells.spaces {gap cs : List Char} {ts : List Token} (hgap : ∀ c ∈ gap, isGapChar c)
    (h : Spells cs ts) : Spells (gap ++ cs) ts := by
  induction gap with
  | nil => exact h
  | cons c gap ih =>
    exact (ih fun d hd => hgap d (List.mem_cons_of_mem _ hd)).space (hgap c List.mem_cons_self)

theorem identStart_apart {c : Char} (h : isIdentStart c) :
    c ≠ '/' ∧ isGapChar c = false ∧ c ≠ '#' := by
  refine ⟨?_, ?_, ?_⟩
  · rintro rfl
    exact absurd h (by decide)
  · cases hg : isGapChar c with
    | false => rfl
    | true =>
      simp only [isGapChar, Bool.or_eq_true, decide_eq_true_eq] at hg
      rcases hg with (((rfl | rfl) | rfl) | rfl) | rfl <;> exact absurd h (by decide)
  · rintro rfl
    exact absurd h (by decide)

theorem Spells.word {name rest : List Char} {ts : List Token}
    (hstart : name.head?.any isIdentStart) (hname : name.all isIdentChar)
    (hrest : Stops isIdentChar rest) (h : Spells rest ts) :
    Spells (name ++ rest) (Lexer.word name :: ts) := by
  cases name with
  | nil => simp at hstart
  | cons c cs =>
    have hc : isIdentStart c := by simpa using hstart
    obtain ⟨hslash, hgap, hhash⟩ := identStart_apart hc
    have htake : (c :: (cs ++ rest)).takeWhile isIdentChar = c :: cs :=
      takeWhile_append_stops (a := c :: cs) (List.all_eq_true.1 hname) hrest
    refine Spells.token (by simp) ?_ h
    rw [List.cons_append, piece_cons hslash, if_neg (by simp [hgap]), if_neg hhash, if_pos hc, htake]

theorem Spells.ident {name : String} {rest : List Char} {ts : List Token} (hname : ProperName name)
    (hrest : Stops isIdentChar rest) (h : Spells rest ts) :
    Spells (name.toList ++ rest) (.ident name :: ts) := by
  obtain ⟨hstart, hall, hword⟩ := hname
  simpa [hword] using h.word hstart hall hrest

theorem Spells.keyword (k : Keyword) {rest : List Char} {ts : List Token}
    (hrest : Stops isIdentChar rest) (h : Spells rest ts) :
    Spells (k.text ++ rest) (.keyword k :: ts) := by
  have hstart : k.text.head?.any isIdentStart := by cases k <;> decide
  have hall : k.text.all isIdentChar := by cases k <;> decide
  have hword : Lexer.word k.text = .keyword k := by cases k <;> decide
  simpa [hword] using h.word hstart hall hrest

theorem Symbol.ofText?_text (s : Symbol) : Symbol.ofText? s.text = some s := by
  cases s <;> decide

/-- The character after the symbol would make another piece of the two. -/
def merges (s : Symbol) (c : Char) : Bool :=
  s.text.length = 1 &&
    ((Symbol.ofText? (s.text ++ [c])).isSome || (s = .slash && (c = '/' || c = '*')) ||
      (s = .dot && c.isDigit))

theorem symbol_apart (s : Symbol) {rest : List Char}
    (hrest : ∀ c ∈ rest.head?, merges s c = false) :
    symbol (s.text ++ rest) = (.token (.symbol s), s.text) := by
  have hlength : s.text.length = 1 ∨ s.text.length = 2 := by cases s <;> simp [Symbol.text]
  rcases hlength with hlength | hlength
  · have hone : (s.text ++ rest).take 1 = s.text := by simp [← hlength]
    cases rest with
    | nil =>
      have htwo : s.text.take 2 = s.text := List.take_of_length_le (by omega)
      simp [symbol, htwo, Symbol.ofText?_text]
    | cons c rest =>
      have htwo : (s.text ++ c :: rest).take 2 = s.text ++ [c] := by
        rw [show 2 = s.text.length + 1 by omega, List.take_length_add_append]
        simp
      have hnone : Symbol.ofText? (s.text ++ [c]) = none := by
        have h := hrest c rfl
        simp [merges, hlength] at h
        exact h.1.1
      simp [symbol, htwo, hnone, hone, Symbol.ofText?_text]
  · have htwo : (s.text ++ rest).take 2 = s.text := by simp [← hlength]
    simp [symbol, htwo, Symbol.ofText?_text]

/-- A symbol starts like no other piece, but for a point before a digit and a comment. -/
theorem Symbol.text_start (s : Symbol) : ∃ c more, s.text = c :: more ∧ isGapChar c = false ∧
    c ≠ '#' ∧ isIdentStart c = false ∧ c.isDigit = false ∧ (c = '.' → s = .dot ∧ more = []) ∧
    (c = '/' → s = .slash ∧ more = [] ∨ more = ['=']) := by
  cases s <;> exact ⟨_, _, rfl, by decide, by decide, by decide, by decide, by decide, by decide⟩

theorem piece_symbol (s : Symbol) {rest : List Char}
    (hrest : ∀ c ∈ rest.head?, merges s c = false) : piece (s.text ++ rest) = symbol (s.text ++ rest) := by
  obtain ⟨c, more, htext, hgap, hhash, hstart, hdigit, hdot, hslash⟩ := Symbol.text_start s
  have hpoint : (c = '.' && (more ++ rest).head?.any Char.isDigit) = false := by
    by_cases hc : c = '.'
    · obtain ⟨rfl, rfl⟩ := hdot hc
      cases rest with
      | nil => simp
      | cons d rest =>
        have h := hrest d rfl
        simp only [merges, Symbol.text, List.length_singleton, decide_true, Bool.true_and,
          Bool.or_eq_false_iff] at h
        simpa [hc] using h.2
    · simp [hc]
  have hnext : ∀ d ∈ (more ++ rest).head?, c = '/' → d ≠ '/' ∧ d ≠ '*' := by
    intro d hd hc
    rcases hslash hc with ⟨rfl, rfl⟩ | rfl
    · have h := hrest d hd
      simp only [merges, Symbol.text, List.length_singleton, decide_true, Bool.true_and,
        Bool.or_eq_false_iff] at h
      simpa using h.1.2
    · obtain rfl : '=' = d := by simpa using hd
      decide
  rw [htext, List.cons_append]
  generalize more ++ rest = tail at *
  unfold piece
  split
  · next h => cases h
  · next h =>
    obtain ⟨rfl, rfl⟩ := List.cons.inj h
    exact absurd rfl (hnext '/' rfl rfl).1
  · next h =>
    obtain ⟨rfl, rfl⟩ := List.cons.inj h
    exact absurd rfl (hnext '*' rfl rfl).2
  · next h =>
    obtain ⟨rfl, rfl⟩ := List.cons.inj h
    simp [hgap, hhash, hstart, hdigit, hpoint]

theorem Spells.symbol (s : Symbol) {rest : List Char} {ts : List Token}
    (hrest : ∀ c ∈ rest.head?, merges s c = false) (h : Spells rest ts) :
    Spells (s.text ++ rest) (.symbol s :: ts) := by
  refine Spells.token (by cases s <;> simp [Symbol.text]) ?_ h
  rw [piece_symbol s hrest, symbol_apart s hrest]

/-- The symbols that end where they are, whatever comes next. -/
def closed : List Symbol :=
  [.lparen, .rparen, .lbrace, .rbrace, .lbracket, .rbracket, .comma, .semi, .question, .colon,
    .inc, .dec, .tilde]

theorem merges_closed {s : Symbol} (hs : s ∈ closed) (c : Char) : merges s c = false := by
  have hlonger : ∀ s ∈ closed, s.text.length = 1 → ∀ t ∈ Symbol.all, t.text.length = 2 →
      t.text.head? ≠ s.text.head? := by decide
  have hkind : ∀ s ∈ closed, s ≠ .slash ∧ s ≠ .dot := by decide
  by_cases hlength : s.text.length = 1
  · have hnone : Symbol.ofText? (s.text ++ [c]) = none := by
      refine List.find?_eq_none.2 fun t ht htext => ?_
      have heq : t.text = s.text ++ [c] := of_decide_eq_true htext
      refine hlonger s hs hlength t ht (by simp [heq, hlength]) ?_
      obtain ⟨d, hd⟩ := List.length_eq_one_iff.1 hlength
      simp [heq, hd]
    simp [merges, hnone, hkind s hs]
  · simp [merges, hlength]

theorem digit_apart {c : Char} (h : c.isDigit) :
    c ≠ '/' ∧ isGapChar c = false ∧ c ≠ '#' ∧ isIdentStart c = false := by
  have hrange : 48 ≤ c.toNat ∧ c.toNat ≤ 57 := by
    simpa [Char.isDigit, UInt32.le_iff_toNat_le] using h
  have hne {d : Char} (hd : d.toNat < 48 ∨ 57 < d.toNat) : c ≠ d := by
    rintro rfl
    omega
  refine ⟨hne (by decide), ?_, hne (by decide), ?_⟩
  · simp only [isGapChar, Bool.or_eq_false_iff, decide_eq_false_iff_not]
    exact ⟨⟨⟨⟨hne (by decide), hne (by decide)⟩, hne (by decide)⟩, hne (by decide)⟩,
      hne (by decide)⟩
  · have hletter : c.isAlpha = false := by
      simp [Char.isAlpha, Char.isUpper, Char.isLower, UInt32.le_iff_toNat_le]
      omega
    simp [isIdentStart, hletter, hne (d := '_') (by decide)]

theorem piece_number {c : Char} (hc : c.isDigit) (rest : List Char) :
    piece (c :: rest) = number (c :: rest) := by
  obtain ⟨hslash, hgap, hhash, hstart⟩ := digit_apart hc
  simp [piece_cons hslash, hgap, hhash, hstart, hc]

theorem Spells.float {v : Single} (hv : (Token.float v).Proper) {rest : List Char}
    {ts : List Token} (hrest : Stops isIdentChar rest) (h : Spells rest ts) :
    Spells (v.text ++ rest) (.float v :: ts) := by
  obtain ⟨digits, exponent, htext, hread⟩ := Single.text_decimalText hv.1 hv.2
  obtain ⟨c, cs, hcs, hc⟩ := htext.head
  have hnumber := htext.number hread hrest
  refine Spells.token (by simp [hcs]) ?_ h
  rw [← hnumber, hcs, List.cons_append, piece_number hc]

theorem Spells.int (v : Int32) {rest : List Char} {ts : List Token}
    (hrest : Stops isIdentChar rest) (hdot : rest.head? ≠ some '.') (h : Spells rest ts) :
    Spells (Numeral.decimal v.toUInt32.toNat ++ rest) (.int v :: ts) := by
  have hnumber := number_int v hrest hdot
  obtain ⟨c, cs, hcs, hc⟩ := decimal_start v.toUInt32.toNat
  refine Spells.token (by simp [hcs]) ?_ h
  rw [← hnumber, hcs, List.cons_append, piece_number hc]

theorem Spells.uint (v : UInt32) {rest : List Char} {ts : List Token} (h : Spells rest ts) :
    Spells ((Token.uint v).text ++ rest) (.uint v :: ts) := by
  have hnumber := number_uint v rest
  simp only [Token.text] at hnumber ⊢
  obtain ⟨c, cs, hcs, hc⟩ := decimal_start v.toNat
  refine Spells.token (by simp [hcs]) ?_ h
  rw [← hnumber, hcs]
  exact piece_number hc _

theorem Spells.directive {text : String} (htext : ProperDirective text) {rest : List Char}
    {ts : List Token} (h : Spells ('\n' :: rest) ts) :
    Spells (text.toList ++ '\n' :: rest) (.directive text :: ts) := by
  obtain ⟨hhash, hline, htrim⟩ := htext
  obtain ⟨cs, hcs⟩ : ∃ cs, text.toList = '#' :: cs := by
    cases hlist : text.toList with
    | nil => simp [hlist] at hhash
    | cons c cs => exact ⟨cs, by simpa [hlist] using hhash⟩
  have htake : ('#' :: (cs ++ '\n' :: rest)).takeWhile (· ≠ '\n') = '#' :: cs := by
    rw [← List.cons_append, ← hcs]
    refine takeWhile_append_stops (fun c hc => ?_) (stops_cons (by simp))
    have hne : c ≠ '\n' := fun heq => hline (heq ▸ hc)
    simpa using hne
  refine Spells.token (by simp [hcs]) ?_ h
  rw [hcs] at htrim ⊢
  rw [List.cons_append, piece_cons (by decide), if_neg (by decide), if_pos rfl, htake, htrim, ← hcs,
    String.ofList_toList]

end Lexer

end ShaderLift
