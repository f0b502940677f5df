import Mathlib
import ShaderLift.Proofs.ReaderResults

/-!
Expressions read back: the tokens of a well-formed expression are read as that expression, before
any token that does not continue it.
-/

namespace ShaderLift

/-- The loosest level of an expression that the token does not continue is one less than this. -/
def Token.binds (t : Token) : Nat :=
  match Grammar.binaryOpOf t with
  | some op => op.level + 1
  | none =>
    match t with
    | .symbol .lparen => 0
    | .symbol .lbracket | .symbol .dot | .symbol .inc | .symbol .dec => 1
    | .symbol .question => BinaryOp.loosest + 2
    | .symbol .assign | .symbol .addAssign | .symbol .subAssign | .symbol .mulAssign
    | .symbol .divAssign | .symbol .remAssign => BinaryOp.loosest + 3
    | _ => BinaryOp.loosest + 4

namespace Grammar

variable {α β : Type}

theorem next_cons (select : Token → Option α) (t : Token) (ts : List Token) :
    next select (t :: ts) = (select t).map fun a => (a, ts) := rfl

theorem next_eq_none {select : Token → Option α} {ts : List Token}
    (h : ∀ t ∈ ts.head?, select t = none) : next select ts = none := by
  cases ts with
  | nil => rfl
  | cons t ts => simp [next_cons, h t rfl]

@[simp] theorem symbol_cons (s : Symbol) (t : Token) (ts : List Token) :
    symbol s (t :: ts) = if t = .symbol s then some ((), ts) else none := by
  by_cases h : t = .symbol s <;> simp [symbol, next_cons, h]

theorem symbol_other {s : Symbol} {ts : List Token} (h : ts.head? ≠ some (.symbol s)) :
    symbol s ts = none := by
  refine next_eq_none fun t ht => if_neg ?_
  rintro rfl
  exact h ht

@[simp] theorem ident_self (name : String) (ts : List Token) :
    ident (.ident name :: ts) = some (name, ts) := rfl

theorem between_reads {p : Reader α} {inner rest : List Token} {a : α} (left right : Symbol)
    (h : p (inner ++ .symbol right :: rest) = some (a, .symbol right :: rest)) :
    between left right p (.symbol left :: (inner ++ .symbol right :: rest)) = some (a, rest) := by
  simp [between, h]

/-- A row is read to its end, if every item is read before what may follow it and no item starts
after the row. -/
theorem many_reads {item : Reader α} {tokens : β → List Token} {value : β → α}
    (P : List Token → Prop) {limit : Nat} {xs : List β} {rest : List Token}
    (hlimit : xs.length ≤ limit) (hstart : ∀ x ∈ xs, ∀ ts, P (tokens x ++ ts)) (hrest : P rest)
    (hitem : ∀ x ∈ xs, ∀ ts, P ts → item (tokens x ++ ts) = some (value x, ts))
    (hstop : item rest = none) :
    many limit item (xs.flatMap tokens ++ rest) = some (xs.map value, rest) := by
  induction xs generalizing limit with
  | nil => cases limit <;> simp [many, hstop]
  | cons x xs ih =>
    obtain ⟨limit, rfl⟩ := Nat.exists_eq_succ_of_ne_zero (n := limit) (by rintro rfl; simp at hlimit)
    have hmore := ih (Nat.le_of_succ_le_succ hlimit)
      (fun y hy => hstart y (List.mem_cons_of_mem _ hy))
      (fun y hy => hitem y (List.mem_cons_of_mem _ hy))
    have hnext : P (xs.flatMap tokens ++ rest) := by
      cases xs with
      | nil => exact hrest
      | cons y ys => simpa using hstart y (by simp) (ys.flatMap tokens ++ rest)
    simp [many, hitem x List.mem_cons_self _ hnext, hmore]

theorem length_le_flatMap {tokens : β → List Token} {xs : List β}
    (h : ∀ x ∈ xs, tokens x ≠ []) : xs.length ≤ (xs.flatMap tokens).length := by
  induction xs with
  | nil => simp
  | cons x xs ih =>
    have hx := List.length_pos_of_ne_nil (h x List.mem_cons_self)
    have hxs := ih fun y hy => h y (List.mem_cons_of_mem _ hy)
    simp only [List.length_cons, List.flatMap_cons, List.length_append]
    omega

theorem length_le_of_mem (tokens : β → List Token) {xs : List β} {x : β} (hx : x ∈ xs) :
    (tokens x).length ≤ (xs.flatMap tokens).length :=
  (List.sublist_flatten_of_mem (List.mem_map_of_mem hx)).length_le

/-- No expression of the level or a tighter one goes on here. -/
def Ends (level : Nat) (rest : List Token) : Prop := ∀ t ∈ rest.head?, level < t.binds

theorem ends_cons {level : Nat} {t : Token} {ts : List Token} (h : level < t.binds) :
    Ends level (t :: ts) := by
  rintro _ ⟨⟩
  exact h

theorem Ends.mono {level tighter : Nat} {rest : List Token} (h : Ends level rest)
    (hle : tighter ≤ level) : Ends tighter rest :=
  fun t ht => Nat.lt_of_le_of_lt hle (h t ht)

theorem Ends.head_ne {level : Nat} {rest : List Token} (h : Ends level rest) {t : Token}
    (ht : t.binds ≤ level) : rest.head? ≠ some t :=
  fun heq => absurd (h t heq) (by omega)

theorem Ends.binaryOp {level : Nat} {rest : List Token} (h : Ends (level + 1) rest) :
    binaryOp level rest = none := by
  refine next_eq_none fun t ht => Option.filter_eq_none_iff.2 fun op hop => ?_
  have hlt := h t ht
  simp only [Token.binds, hop] at hlt
  simp
  omega

theorem Ends.assignOp {rest : List Token} (h : Ends (BinaryOp.loosest + 3) rest) :
    assignOp rest = none := by
  refine next_eq_none fun t ht => ?_
  have hlt := h t ht
  split
  all_goals first | rfl | exact absurd hlt (by decide)

theorem Ends.suffix {rest : List Token} (h : Ends 1 rest) (r : Reader Expr) :
    suffix r rest = none := by
  have hindex : symbol .lbracket rest = none := symbol_other (h.head_ne (by decide))
  have hmember : symbol .dot rest = none := symbol_other (h.head_ne (by decide))
  have hinc : symbol .inc rest = none := symbol_other (h.head_ne (by decide))
  have hdec : symbol .dec rest = none := symbol_other (h.head_ne (by decide))
  simp [Grammar.suffix, between, hindex, hmember, hinc, hdec]

theorem binaryOp_self (op : BinaryOp) (ts : List Token) :
    binaryOp op.level (.symbol op.symbol :: ts) = some (op, ts) := by
  have hop : binaryOpOf (.symbol op.symbol) = some op := by cases op <;> rfl
  simp [binaryOp, next_cons, hop]

theorem binds_symbol (op : BinaryOp) : (Token.symbol op.symbol).binds = op.level + 1 := by
  cases op <;> rfl

theorem assignOp_self (op : AssignOp) (ts : List Token) :
    assignOp (.symbol op.symbol :: ts) = some (op, ts) := by cases op <;> rfl

theorem signOp_self {op : UnaryOp} (h : op.isPostfix = false) (ts : List Token) :
    signOp (.symbol op.symbol :: ts) = some (op, ts) := by
  cases op <;> first | rfl | exact absurd h (by decide)

theorem literal_self (v : Literal) (ts : List Token) : literal (v.token :: ts) = some (v, ts) := by
  cases v <;> rfl

theorem commaList1_reads {item : Reader α} {tokens : β → List Token} {value : β → α}
    (P : List Token → Prop) {limit : Nat} {xs : List β} {rest : List Token} (hne : xs ≠ [])
    (hlimit : xs.length ≤ limit + 1) (hcomma : ∀ ts, P (.symbol .comma :: ts)) (hrest : P rest)
    (hitem : ∀ x ∈ xs, ∀ ts, P ts → item (tokens x ++ ts) = some (value x, ts))
    (hstop : rest.head? ≠ some (.symbol .comma)) :
    commaList1 limit item (commaTokens (xs.map tokens) ++ rest) = some (xs.map value, rest) := by
  obtain ⟨x, xs, rfl⟩ := List.exists_cons_of_ne_nil hne
  have hmore : many limit (do symbol .comma; item)
      (xs.flatMap (fun y => .symbol .comma :: tokens y) ++ rest) = some (xs.map value, rest) := by
    refine many_reads P (Nat.le_of_succ_le_succ hlimit) (fun _ _ ts => hcomma _) hrest ?_ ?_
    · intro y hy ts hts
      simp [hitem y (List.mem_cons_of_mem _ hy) ts hts]
    · simp [symbol_other hstop]
  have hnext : P (xs.flatMap (fun y => .symbol .comma :: tokens y) ++ rest) := by
    cases xs with
    | nil => exact hrest
    | cons y ys => exact hcomma _
  simp [commaList1, commaTokens, List.flatMap_map, hitem x List.mem_cons_self _ hnext, hmore]

theorem commaList_reads {item : Reader α} {tokens : β → List Token} {value : β → α}
    (P : List Token → Prop) {limit : Nat} {xs : List β} {rest : List Token}
    (hlimit : xs.length ≤ limit + 1) (hcomma : ∀ ts, P (.symbol .comma :: ts)) (hrest : P rest)
    (hitem : ∀ x ∈ xs, ∀ ts, P ts → item (tokens x ++ ts) = some (value x, ts))
    (hnone : item rest = none) (hstop : rest.head? ≠ some (.symbol .comma)) :
    commaList limit item (commaTokens (xs.map tokens) ++ rest) = some (xs.map value, rest) := by
  by_cases hne : xs = []
  · subst hne
    simp [commaList, commaList1, commaTokens, hnone]
  · simp [commaList, commaList1_reads P hne hlimit hcomma hrest hitem hstop]

theorem length_le_commaTokens (tokens : β → List Token) (xs : List β) :
    xs.length ≤ (commaTokens (xs.map tokens)).length + 1 := by
  cases xs with
  | nil => simp
  | cons x xs =>
    have hmore : xs.length ≤ (xs.flatMap fun y => .symbol .comma :: tokens y).length :=
      length_le_flatMap (by simp)
    simp only [List.map_cons, commaTokens, List.flatMap_map, List.length_append, List.length_cons]
    omega

theorem length_le_commaTokens_of_mem (tokens : β → List Token) {xs : List β} {x : β}
    (hx : x ∈ xs) : (tokens x).length ≤ (commaTokens (xs.map tokens)).length := by
  cases xs with
  | nil => simp at hx
  | cons y ys =>
    simp only [List.map_cons, commaTokens, List.flatMap_map, List.length_append]
    obtain rfl | hx := List.mem_cons.1 hx
    · omega
    · have hmore := length_le_of_mem (fun y => .symbol .comma :: tokens y) hx
      simp only [List.length_cons] at hmore
      omega

/-- No expression starts here. -/
structure NoExpr (ts : List Token) : Prop where
  literal : literal ts = none
  ident : ident ts = none
  paren : symbol .lparen ts = none
  sign : signOp ts = none

/-- The reader takes the tokens of well-formed expressions of fewer than `n` of them. -/
structure ReadsExprs (n : Nat) (r : Reader Expr) : Prop where
  reads : ∀ e : Expr, e.WellFormed → e.tokens.length < n → ∀ rest,
    Ends (BinaryOp.loosest + 3) rest → r (e.tokens ++ rest) = some (e.unnumbered, rest)
  refuses : ∀ ts, NoExpr ts → r ts = none

section

variable {n limit : Nat} {r : Reader Expr} {e : Expr} {rest : List Token}

theorem args_read (hr : ReadsExprs n r) (hn : n ≤ limit) {args : List Expr}
    (hwf : Expr.WellFormedArgs args) (hlen : (Expr.tokensOfArgs args).length + 2 ≤ n)
    (rest : List Token) :
    commaList limit r (Expr.tokensOfArgs args ++ .symbol .rparen :: rest) =
      some (Expr.unnumberedArgs args, .symbol .rparen :: rest) := by
  rw [Expr.tokensOfArgs_eq] at hlen ⊢
  rw [Expr.unnumberedArgs_eq]
  rw [wellFormedArgs_iff] at hwf
  have hcount := length_le_commaTokens Expr.tokens args
  refine commaList_reads (Ends (BinaryOp.loosest + 3)) (by omega) (fun ts => ends_cons (by decide))
    (ends_cons (by decide)) ?_ (hr.refuses _ ⟨rfl, rfl, rfl, rfl⟩) (by simp)
  intro e he ts hts
  have hle := length_le_commaTokens_of_mem Expr.tokens he
  exact hr.reads e (hwf e he) (by omega) ts hts

/-- What a suffix can follow, and has none itself. -/
def Primary : Expr → Prop
  | .literal _ _ | .name _ _ | .paren _ _ | .call _ _ _ => True
  | _ => False

theorem primary_reads (hr : ReadsExprs n r) (hn : n ≤ limit) (he : Primary e) (hwf : e.WellFormed)
    (hlen : e.tokens.length ≤ n) (hrest : Ends 0 rest) :
    primary limit r (e.tokens ++ rest) = some (e.unnumbered, rest) := by
  cases e with
  | literal id v => simp [Expr.tokens, primary, literal_self, Expr.unnumbered]
  | name id name =>
    have hcall : symbol .lparen rest = none := symbol_other (hrest.head_ne (by decide))
    have hliteral : literal (.ident name :: rest) = none := rfl
    simp [Expr.tokens, primary, callOrName, Reader.optional_apply, between, hcall, hliteral,
      Expr.unnumbered]
  | paren id e =>
    simp only [Expr.tokens, List.length_cons, List.length_append, List.length_nil] at hlen
    have hinner := hr.reads e hwf (by omega) (.symbol .rparen :: rest) (ends_cons (by decide))
    have hbetween := between_reads .lparen .rparen hinner
    have hliteral : ∀ ts, literal (.symbol .lparen :: ts) = none := fun _ => rfl
    have hname : ∀ ts, ident (.symbol .lparen :: ts) = none := fun _ => rfl
    simp [Expr.tokens, primary, callOrName, hliteral, hname, hbetween, Expr.unnumbered]
  | call id f args =>
    simp only [Expr.tokens, List.length_cons, List.length_append, List.length_nil] at hlen
    have hinner := args_read hr hn hwf.2 (by omega) rest
    have hbetween := between_reads .lparen .rparen hinner
    have hliteral : ∀ ts, literal (.ident f :: ts) = none := fun _ => rfl
    simp [Expr.tokens, primary, callOrName, Reader.optional_apply, hliteral, hbetween,
      Expr.unnumbered]
  | _ => exact he.elim

def Suffix.tokens : Suffix → List Token
  | index i => .symbol .lbracket :: (i.tokens ++ [.symbol .rbracket])
  | member f => [.symbol .dot, .ident f]
  | inc => [.symbol .inc]
  | dec => [.symbol .dec]

def Suffix.unnumbered : Suffix → Suffix
  | index i => index i.unnumbered
  | s => s

def Suffix.WellFormed : Suffix → Prop
  | index i => i.WellFormed
  | _ => True

theorem suffix_reads (hr : ReadsExprs n r) {s : Suffix} (hwf : s.WellFormed)
    (hlen : s.tokens.length ≤ n) (rest : List Token) :
    suffix r (s.tokens ++ rest) = some (s.unnumbered, rest) := by
  cases s with
  | index i =>
    simp only [Suffix.tokens, List.length_cons, List.length_append, List.length_nil] at hlen
    have hinner := hr.reads i hwf (by omega) (.symbol .rbracket :: rest) (ends_cons (by decide))
    have hbetween := between_reads .lbracket .rbracket hinner
    simp [Suffix.tokens, suffix, hbetween, Suffix.unnumbered]
  | member f =>
    have hindex : ∀ ts, symbol .lbracket (.symbol .dot :: ts) = none := fun _ => rfl
    simp [Suffix.tokens, suffix, between, hindex, Suffix.unnumbered]
  | inc | dec =>
    simp [Suffix.tokens, suffix, between, symbol, next_cons, Suffix.unnumbered]

/-- The expression is a primary one with suffixes. -/
def Suffixed (e : Expr) : Prop :=
  ∃ (base : Expr) (suffixes : List Suffix), Primary base ∧ base.WellFormed ∧
    (∀ s ∈ suffixes, s.WellFormed) ∧ e.tokens = base.tokens ++ suffixes.flatMap Suffix.tokens ∧
    e.unnumbered = (suffixes.map Suffix.unnumbered).foldl Suffix.apply base.unnumbered

theorem suffixed_primary (he : Primary e) (hwf : e.WellFormed) : Suffixed e :=
  ⟨e, [], he, hwf, by simp, by simp, by simp⟩

theorem Suffixed.snoc {b : Expr} {s : Suffix} (h : Suffixed b) (hs : s.WellFormed)
    (htokens : e.tokens = b.tokens ++ s.tokens)
    (hvalue : e.unnumbered = s.unnumbered.apply b.unnumbered) : Suffixed e := by
  obtain ⟨base, suffixes, hbase, hwf, hall, htokens', hvalue'⟩ := h
  refine ⟨base, suffixes ++ [s], hbase, hwf, ?_, ?_, ?_⟩
  · simpa [or_imp, forall_and] using ⟨hall, hs⟩
  · simp [htokens, htokens']
  · simp [hvalue, hvalue']

/-- Where a suffix can follow, there is a primary expression with suffixes. -/
theorem suffixed_of_level : ∀ (e : Expr), e.WellFormed → e.level = 0 → Suffixed e
  | .literal _ _, hwf, _ => suffixed_primary trivial hwf
  | .name _ _, hwf, _ => suffixed_primary trivial hwf
  | .paren _ _, hwf, _ => suffixed_primary trivial hwf
  | .call _ _ _, hwf, _ => suffixed_primary trivial hwf
  | .index _ b i, hwf, _ =>
    (suffixed_of_level b hwf.1 hwf.2.2).snoc (s := .index i) hwf.2.1 rfl rfl
  | .member _ b f, hwf, _ =>
    (suffixed_of_level b hwf.1 hwf.2.2).snoc (s := .member f) trivial rfl rfl
  | .unary _ .postInc b, hwf, _ =>
    (suffixed_of_level b hwf.1 (Nat.le_zero.1 hwf.2)).snoc (s := .inc) trivial rfl rfl
  | .unary _ .postDec b, hwf, _ =>
    (suffixed_of_level b hwf.1 (Nat.le_zero.1 hwf.2)).snoc (s := .dec) trivial rfl rfl

theorem withSuffixes_reads (hr : ReadsExprs n r) (hn : n ≤ limit) (hwf : e.WellFormed)
    (hlevel : e.level = 0) (hlen : e.tokens.length ≤ n) (hrest : Ends 1 rest) :
    withSuffixes limit r (e.tokens ++ rest) = some (e.unnumbered, rest) := by
  obtain ⟨base, suffixes, hbase, hbasewf, hall, htokens, hvalue⟩ := suffixed_of_level e hwf hlevel
  simp only [htokens, List.length_append] at hlen
  have hcount : suffixes.length ≤ (suffixes.flatMap Suffix.tokens).length :=
    length_le_flatMap fun s _ => by cases s <;> simp [Suffix.tokens]
  have hmany : many limit (suffix r) (suffixes.flatMap Suffix.tokens ++ rest) =
      some (suffixes.map Suffix.unnumbered, rest) := by
    refine many_reads (fun _ => True) (by omega) (fun _ _ _ => trivial) trivial ?_ (hrest.suffix r)
    intro s hs ts _
    have hle := length_le_of_mem Suffix.tokens hs
    exact suffix_reads hr (hall s hs) (by omega) ts
  have hnext : Ends 0 (suffixes.flatMap Suffix.tokens ++ rest) := by
    cases suffixes with
    | nil => exact hrest.mono (by omega)
    | cons s suffixes => cases s <;> exact ends_cons (by decide)
  have hfirst := primary_reads hr hn hbase hbasewf (by omega) hnext
  simp [withSuffixes, htokens, hfirst, hmany, hvalue]

/-- The expression is one that a suffix can follow, behind prefix operators. -/
def Prefixed (e : Expr) : Prop :=
  ∃ (ops : List UnaryOp) (operand : Expr), operand.WellFormed ∧ operand.level = 0 ∧
    (∀ op ∈ ops, op.isPostfix = false) ∧
    e.tokens = ops.flatMap (fun op => [.symbol op.symbol]) ++ operand.tokens ∧
    e.unnumbered = ops.foldr (fun op e => .unary .unassigned op e) operand.unnumbered

theorem prefixed_operand (hwf : e.WellFormed) (hlevel : e.level = 0) : Prefixed e :=
  ⟨[], e, hwf, hlevel, by simp, by simp, by simp⟩

theorem prefixed_of_level : ∀ (e : Expr), e.WellFormed → e.level ≤ 1 → Prefixed e
  | .unary id op e, hwf, hlevel => by
    by_cases hop : op.isPostfix
    · exact prefixed_operand hwf (by simp [Expr.level, hop])
    · rw [Bool.not_eq_true] at hop
      obtain ⟨ops, operand, hoperand, hzero, hops, htokens, hvalue⟩ :=
        prefixed_of_level e hwf.1 (by simpa [hop] using hwf.2)
      refine ⟨op :: ops, operand, hoperand, hzero, ?_, ?_, ?_⟩
      · simpa using ⟨hop, hops⟩
      · simp [Expr.tokens, hop, htokens]
      · simp [Expr.unnumbered, hvalue]
  | .literal _ _, hwf, _ => prefixed_operand hwf rfl
  | .name _ _, hwf, _ => prefixed_operand hwf rfl
  | .paren _ _, hwf, _ => prefixed_operand hwf rfl
  | .call _ _ _, hwf, _ => prefixed_operand hwf rfl
  | .index _ _ _, hwf, _ => prefixed_operand hwf rfl
  | .member _ _ _, hwf, _ => prefixed_operand hwf rfl
  | .binary _ op _ _, _, hlevel => by cases op <;> simp [Expr.level, BinaryOp.level] at hlevel
  | .ternary _ _ _ _, _, hlevel => by simp [Expr.level] at hlevel
  | .assign _ _ _ _, _, hlevel => by simp [Expr.level] at hlevel

theorem signOp_operand (hwf : e.WellFormed) (hlevel : e.level = 0) (rest : List Token) :
    signOp (e.tokens ++ rest) = none := by
  obtain ⟨base, suffixes, hbase, -, -, htokens, -⟩ := suffixed_of_level e hwf hlevel
  rw [htokens]
  cases base with
  | literal id v => cases v <;> rfl
  | name | paren | call => rfl
  | _ => exact hbase.elim

theorem unary_reads (hr : ReadsExprs n r) (hn : n ≤ limit) (hwf : e.WellFormed)
    (hlevel : e.level ≤ 1) (hlen : e.tokens.length ≤ n) (hrest : Ends 1 rest) :
    unary limit r (e.tokens ++ rest) = some (e.unnumbered, rest) := by
  obtain ⟨ops, operand, hoperand, hzero, hops, htokens, hvalue⟩ := prefixed_of_level e hwf hlevel
  simp only [htokens, List.length_append] at hlen
  have hcount : ops.length ≤ (ops.flatMap fun op => [Token.symbol op.symbol]).length :=
    length_le_flatMap (by simp)
  have hmany : many limit signOp
      (ops.flatMap (fun op => [.symbol op.symbol]) ++ (operand.tokens ++ rest)) =
        some (ops.map id, operand.tokens ++ rest) :=
    many_reads (fun _ => True) (by omega) (fun _ _ _ => trivial) trivial
      (fun op hop ts _ => signOp_self (hops op hop) ts) (signOp_operand hoperand hzero rest)
  have hread := withSuffixes_reads hr hn hoperand hzero (by omega) hrest
  simp [unary, htokens, hmany, hread, hvalue]

/-- The expression is a row of tighter operands with operators of the level between them. -/
def Chained (level : Nat) (e : Expr) : Prop :=
  ∃ (first : Expr) (items : List (BinaryOp × Expr)), first.WellFormed ∧ first.level ≤ level ∧
    (∀ x ∈ items, x.1.level = level ∧ x.2.WellFormed ∧ x.2.level ≤ level) ∧
    e.tokens = first.tokens ++ items.flatMap (fun x => .symbol x.1.symbol :: x.2.tokens) ∧
    e.unnumbered = (items.map fun x => (x.1, x.2.unnumbered)).foldl
      (fun l x => .binary .unassigned x.1 l x.2) first.unnumbered

theorem chained_operand {level : Nat} (hwf : e.WellFormed) (hlevel : e.level ≤ level) :
    Chained level e :=
  ⟨e, [], hwf, hlevel, by simp, by simp, by simp⟩

theorem chained_of_level {level : Nat} (hlow : 1 ≤ level) (hhigh : level ≤ BinaryOp.loosest) :
    ∀ (e : Expr), e.WellFormed → e.level ≤ level + 1 → Chained level e
  | .binary id op l x, hwf, hlevel => by
    by_cases hop : op.level = level
    · obtain ⟨first, items, hfirst, hle, hitems, htokens, hvalue⟩ :=
        chained_of_level hlow hhigh l hwf.1 (hop ▸ hwf.2.2.1)
      refine ⟨first, items ++ [(op, x)], hfirst, hle, ?_, ?_, ?_⟩
      · intro y hy
        obtain hy | hy := List.mem_append.1 hy
        · exact hitems y hy
        · obtain rfl := List.mem_singleton.1 hy
          exact ⟨hop, hwf.2.1, hop ▸ hwf.2.2.2⟩
      · simp [Expr.tokens, htokens]
      · simp [Expr.unnumbered, hvalue]
    · refine chained_operand hwf ?_
      simp only [Expr.level] at hlevel ⊢
      omega
  | .unary id op x, hwf, _ => by
    refine chained_operand hwf ?_
    simp only [Expr.level]
    split <;> omega
  | .ternary _ _ _ _, _, hlevel | .assign _ _ _ _, _, hlevel => by
    simp only [Expr.level] at hlevel
    omega
  | .literal _ _, hwf, _ | .name _ _, hwf, _ | .paren _ _, hwf, _ | .call _ _ _, hwf, _
  | .index _ _ _, hwf, _ | .member _ _ _, hwf, _ => chained_operand hwf (Nat.zero_le _)

theorem binary_reads (hr : ReadsExprs n r) (hn : n ≤ limit) {level : Nat}
    (hloosest : level ≤ BinaryOp.loosest) (hwf : e.WellFormed) (hlevel : e.level ≤ level + 1)
    (hlen : e.tokens.length ≤ n) (hrest : Ends (level + 1) rest) :
    binary limit r level (e.tokens ++ rest) = some (e.unnumbered, rest) := by
  induction level generalizing e rest with
  | zero => exact unary_reads hr hn hwf hlevel hlen hrest
  | succ level ih =>
    obtain ⟨first, items, hfirst, hle, hitems, htokens, hvalue⟩ :=
      chained_of_level (by omega) hloosest e hwf hlevel
    simp only [htokens, List.length_append] at hlen
    have hcount : items.length ≤
        (items.flatMap fun x => Token.symbol x.1.symbol :: x.2.tokens).length :=
      length_le_flatMap (by simp)
    have hstart : ∀ x ∈ items, ∀ ts,
        Ends (level + 1) ((Token.symbol x.1.symbol :: x.2.tokens) ++ ts) := by
      intro x hx ts
      refine ends_cons ?_
      rw [binds_symbol, (hitems x hx).1]
      omega
    have hmany : many limit (do return (← binaryOp (level + 1), ← binary limit r level))
        (items.flatMap (fun x => .symbol x.1.symbol :: x.2.tokens) ++ rest) =
          some (items.map fun x => (x.1, x.2.unnumbered), rest) := by
      refine many_reads (Ends (level + 1)) (by omega) hstart (hrest.mono (by omega)) ?_ ?_
      · intro x hx ts hts
        obtain ⟨hop, hxwf, hxlevel⟩ := hitems x hx
        have hxlen := length_le_of_mem (fun x => Token.symbol x.1.symbol :: x.2.tokens) hx
        simp only [List.length_cons] at hxlen
        have hsymbol := binaryOp_self x.1 (x.2.tokens ++ ts)
        rw [hop] at hsymbol
        simp [hsymbol, ih (by omega) hxwf hxlevel (by omega) hts]
      · simp [hrest.binaryOp]
    have hnext : Ends (level + 1)
        (items.flatMap (fun x => .symbol x.1.symbol :: x.2.tokens) ++ rest) := by
      cases items with
      | nil => exact hrest.mono (by omega)
      | cons x items => simpa using hstart x List.mem_cons_self _
    have hhead := ih (by omega) hfirst hle (by omega) hnext
    simp only [binary, htokens, List.append_assoc, Reader.bind_apply, hhead, Option.bind_some,
      hmany, Reader.pure_apply, hvalue]

theorem conditional_reads (hr : ReadsExprs n r) (hn : n ≤ limit) (hwf : e.WellFormed)
    (hlevel : e.level ≤ BinaryOp.loosest + 1) (hlen : e.tokens.length ≤ n)
    (hrest : Ends (BinaryOp.loosest + 2) rest) :
    conditional limit r (e.tokens ++ rest) = some (e.unnumbered, rest) := by
  have hread := binary_reads hr hn (Nat.le_refl _) hwf hlevel hlen (hrest.mono (by omega))
  have hmark : symbol .question rest = none := symbol_other (hrest.head_ne (by decide))
  simp [conditional, hread, Reader.optional_apply, hmark]

theorem ternary_reads (hr : ReadsExprs n r) (hn : n ≤ limit) {id : NodeId} {c y x : Expr}
    (hwf : (Expr.ternary id c y x).WellFormed) (hlen : (Expr.ternary id c y x).tokens.length ≤ n)
    (hrest : Ends (BinaryOp.loosest + 3) rest) :
    conditional limit r ((Expr.ternary id c y x).tokens ++ rest) =
      some ((Expr.ternary id c y x).unnumbered, rest) := by
  obtain ⟨hc, hy, hx, hlevel⟩ := hwf
  simp only [Expr.tokens, List.length_append, List.length_cons] at hlen
  have hmark : Ends (BinaryOp.loosest + 1)
      (.symbol .question :: (y.tokens ++ .symbol .colon :: (x.tokens ++ rest))) :=
    ends_cons (by decide)
  have hcond := binary_reads hr hn (Nat.le_refl _) hc hlevel (by omega) hmark
  have hyes := hr.reads y hy (by omega) (.symbol .colon :: (x.tokens ++ rest))
    (ends_cons (by decide))
  have hno := hr.reads x hx (by omega) rest hrest
  simp [conditional, Expr.tokens, hcond, Reader.optional_apply, hyes, hno, Expr.unnumbered]

theorem assignment_reads (hr : ReadsExprs n r) (hn : n ≤ limit) (hwf : e.WellFormed)
    (hlen : e.tokens.length ≤ n) (hrest : Ends (BinaryOp.loosest + 3) rest) :
    assignment limit r (e.tokens ++ rest) = some (e.unnumbered, rest) := by
  have hlast : ∀ a, conditional limit r (e.tokens ++ rest) = some (a, rest) →
      assignment limit r (e.tokens ++ rest) = some (a, rest) := by
    intro a ha
    simp [assignment, ha, Reader.optional_apply, hrest.assignOp]
  cases e with
  | assign id op l x =>
    obtain ⟨hl, hx, hlevel⟩ := hwf
    simp only [Expr.tokens, List.length_append, List.length_cons] at hlen
    have hends : Ends (BinaryOp.loosest + 2) (.symbol op.symbol :: (x.tokens ++ rest)) :=
      ends_cons (by cases op <;> decide)
    have hleft := conditional_reads hr hn hl hlevel (by omega) hends
    have hright := hr.reads x hx (by omega) rest hrest
    simp [assignment, Expr.tokens, hleft, Reader.optional_apply, assignOp_self, hright,
      Expr.unnumbered]
  | ternary id c y x => exact hlast _ (ternary_reads hr hn hwf hlen hrest)
  | unary id op x =>
    refine hlast _ (conditional_reads hr hn hwf ?_ hlen (hrest.mono (by omega)))
    simp only [Expr.level]
    split <;> omega
  | binary id op l x =>
    refine hlast _ (conditional_reads hr hn hwf ?_ hlen (hrest.mono (by omega)))
    have hop : op.level ≤ BinaryOp.loosest := by cases op <;> decide
    simpa [Expr.level] using hop
  | _ =>
    exact hlast _ (conditional_reads hr hn hwf (Nat.zero_le _) hlen (hrest.mono (by omega)))

theorem assignment_refuses {ts : List Token} (h : NoExpr ts) : assignment limit r ts = none := by
  have hsigns : many limit signOp ts = some ([], ts) := by
    cases limit <;> simp [many, h.sign]
  have hprimary : primary limit r ts = none := by
    simp [primary, callOrName, between, h.literal, h.ident, h.paren]
  have hbinary : ∀ level, binary limit r level ts = none := by
    intro level
    induction level with
    | zero => simp [binary, unary, withSuffixes, hsigns, hprimary]
    | succ level ih => simp [binary, ih]
  simp [assignment, conditional, hbinary]

end

theorem readsExprs_expr (limit : Nat) : ReadsExprs limit (expr limit) := by
  induction limit with
  | zero => exact ⟨fun e _ hlen => absurd hlen (by omega), fun _ _ => rfl⟩
  | succ limit ih =>
    exact ⟨fun e hwf hlen rest hrest =>
        assignment_reads ih (Nat.le_refl _) hwf (Nat.le_of_lt_succ hlen) hrest,
      fun ts h => assignment_refuses h⟩

end Grammar

end ShaderLift
