import Mathlib
import ShaderLift.Proofs.Readers
import ShaderLift.Proofs.Spelling

/-!
What the readers give: trees that are well-formed and have no identities yet.
-/

namespace ShaderLift.Grammar

variable {α β : Type} {n k : Nat}

def ProperTokens (ts : List Token) : Prop := ∀ t ∈ ts, t.Proper

theorem ProperTokens.suffix {ts rest : List Token} (h : ProperTokens ts) (hrest : rest <:+ ts) :
    ProperTokens rest :=
  fun t ht => h t (hrest.subset ht)

/-- What the reader gives on fewer than `n` proper tokens, and the tokens it leaves, satisfy `R`. -/
def Yields (n : Nat) (p : Reader α) (R : α → List Token → Prop) : Prop :=
  ∀ ts a rest, ts.length < n → ProperTokens ts → p ts = some (a, rest) → R a rest

abbrev Gives (n : Nat) (p : Reader α) (P : α → Prop) : Prop := Yields n p fun a _ => P a

section

variable {P : α → Prop} {R : α → List Token → Prop} {S : β → List Token → Prop}

theorem Yields.mono {p : Reader α} (h : Yields n p R) (hk : k ≤ n) : Yields k p R :=
  fun ts a rest hts => h ts a rest (by omega)

theorem Yields.imp {p : Reader α} {R' : α → List Token → Prop} (h : Yields n p R)
    (hR : ∀ a rest, R a rest → R' a rest) : Yields n p R' :=
  fun ts a rest hts hproper hr => hR a rest (h ts a rest hts hproper hr)

theorem gives_pure {a : α} (h : P a) : Gives n (pure a : Reader α) P := by
  intro ts b rest _ _ hr
  simp only [Reader.pure_apply, Option.some.injEq, Prod.mk.injEq] at hr
  exact hr.1 ▸ h

theorem gives_next {select : Token → Option α} (h : ∀ t a, t.Proper → select t = some a → P a) :
    Gives n (next select) P := by
  intro ts a rest _ hproper hr
  cases ts with
  | nil => simp [next] at hr
  | cons t ts =>
    obtain ⟨b, hb, hab⟩ := Option.map_eq_some_iff.1 hr
    obtain ⟨rfl, -⟩ := Prod.mk.inj hab
    exact h t b (hproper t List.mem_cons_self) hb

theorem gives_any (p : Reader α) : Gives n p fun _ => True := fun _ _ _ _ _ _ => trivial

theorem Yields.bind {p : Reader α} {f : α → Reader β} (h : Gives n p P) (hp : Leaves p)
    (hf : ∀ a, P a → Yields n (f a) S) : Yields n (p >>= f) S := by
  intro ts b rest hts hproper hr
  obtain ⟨a, mid, ha, hb⟩ := Reader.bind_eq_some hr
  have hmid := hp ts a mid ha
  have hlen := hmid.length_le
  exact hf a (h ts a mid hts hproper ha) mid b rest (by omega) (hproper.suffix hmid) hb

theorem Yields.bind_takes {p : Reader α} {f : α → Reader β} (h : Gives (n + 1) p P)
    (hp : Takes p) (hf : ∀ a, P a → Yields n (f a) S) : Yields (n + 1) (p >>= f) S := by
  intro ts b rest hts hproper hr
  obtain ⟨a, mid, ha, hb⟩ := Reader.bind_eq_some hr
  obtain ⟨hmid, hlen⟩ := hp ts a mid ha
  exact hf a (h ts a mid hts hproper ha) mid b rest (by omega) (hproper.suffix hmid) hb

theorem Yields.orElse {p q : Reader α} (hp : Yields n p R) (hq : Yields n q R) :
    Yields n (p <|> q) R := by
  intro ts a rest hts hproper hr
  rw [Reader.orElse_apply, Option.or_eq_some_iff] at hr
  rcases hr with hr | ⟨-, hr⟩
  · exact hp ts a rest hts hproper hr
  · exact hq ts a rest hts hproper hr

theorem Yields.optional {p : Reader α} (h : Gives n p P) :
    Gives n (optional p) fun o => ∀ a ∈ o, P a := by
  intro ts o rest hts hproper hr a ha
  rw [Reader.optional_apply] at hr
  cases hp : p ts with
  | none =>
    simp only [hp, Option.map_none, Option.some.injEq, Prod.mk.injEq] at hr
    simp [← hr.1] at ha
  | some r =>
    simp only [hp, Option.map_some, Option.some.injEq, Prod.mk.injEq] at hr
    obtain rfl : r.1 = a := by simpa [← hr.1] using ha
    exact h ts r.1 r.2 hts hproper hp

theorem Yields.many {p : Reader α} (h : Gives n p P) (hp : Leaves p) (limit : Nat) :
    Gives n (many limit p) fun as => ∀ a ∈ as, P a := by
  induction limit with
  | zero => exact gives_pure (by simp)
  | succ limit ih =>
    refine Yields.orElse (h.bind hp fun a ha => ?_) (gives_pure (by simp))
    refine ih.bind (hp.many limit) fun as has => gives_pure ?_
    simpa using ⟨ha, has⟩

theorem Yields.many1 {p : Reader α} (h : Gives n p P) (hp : Leaves p) (limit : Nat) :
    Gives n (many1 limit p) fun as => as ≠ [] ∧ ∀ a ∈ as, P a := by
  refine h.bind hp fun a ha => (h.many hp limit).bind (hp.many limit) fun as has => gives_pure ?_
  simpa using ⟨ha, has⟩

theorem Yields.commaList1 {p : Reader α} (h : Gives n p P) (hp : Leaves p) (limit : Nat) :
    Gives n (commaList1 limit p) fun as => as ≠ [] ∧ ∀ a ∈ as, P a := by
  have hitem : Leaves (do symbol .comma; p) := (takes_next _).leaves.bind fun _ => hp
  have hitems : Gives n (do symbol .comma; p) P :=
    (gives_any _).bind (takes_next _).leaves fun _ _ => h
  refine h.bind hp fun a ha => (hitems.many hitem limit).bind (hitem.many limit) fun as has =>
    gives_pure ?_
  simpa using ⟨ha, has⟩

theorem Yields.commaList {p : Reader α} (h : Gives n p P) (hp : Leaves p) (limit : Nat) :
    Gives n (commaList limit p) fun as => ∀ a ∈ as, P a :=
  ((h.commaList1 hp limit).imp fun _ _ has => has.2).orElse (gives_pure (by simp))

theorem Yields.between {p : Reader α} (h : Gives n p P) (hp : Leaves p) (left right : Symbol) :
    Gives (n + 1) (between left right p) P :=
  (gives_any _).bind_takes (takes_next _) fun _ _ => h.bind hp fun _ ha =>
    (gives_any _).bind (takes_next _).leaves fun _ _ => gives_pure ha

end

def Given (e : Expr) : Prop := e.WellFormed ∧ e.unnumbered = e

theorem wellFormedArgs_iff {args : List Expr} :
    Expr.WellFormedArgs args ↔ ∀ e ∈ args, e.WellFormed := by
  induction args with
  | nil => simp [Expr.WellFormedArgs]
  | cons e es ih => simp [Expr.WellFormedArgs, ih]

theorem gives_ident : Gives n ident ProperName := by
  refine gives_next fun t name ht h => ?_
  cases t with
  | ident word =>
    obtain rfl : word = name := by simpa using h
    exact ht
  | _ => simp at h

theorem gives_literal : Gives n literal fun v => v.token.Proper := by
  refine gives_next fun t v ht h => ?_
  cases t with
  | int _ | uint _ | float _ | bool _ =>
    obtain rfl := Option.some.inj h
    exact ht
  | _ => simp at h

section

variable {e : Reader Expr} {limit : Nat}

theorem gives_primary (h : Gives n e Given) (he : Takes e) :
    Gives (n + 1) (primary limit e) fun r => Given r ∧ r.level = 0 := by
  have hargs := (h.commaList he.leaves limit).between (he.commaList limit) .lparen .rparen
  have hleaves := ((he.commaList limit).between .lparen .rparen).leaves
  refine Yields.orElse ?_ (Yields.orElse ?_ ?_)
  · refine gives_literal.bind (takes_next _).leaves fun v hv => gives_pure ?_
    exact ⟨⟨hv, rfl⟩, rfl⟩
  · refine gives_ident.bind (takes_next _).leaves fun name hname => ?_
    refine hargs.optional.bind hleaves.optional fun args hargs => ?_
    cases args with
    | none => exact gives_pure ⟨⟨hname, rfl⟩, rfl⟩
    | some args =>
      have hwf : ∀ e ∈ args, e.WellFormed := fun e he => (hargs args rfl e he).1
      have hraw : args.map Expr.unnumbered = args :=
        map_eq_self fun e he => (hargs args rfl e he).2
      refine gives_pure ⟨⟨⟨hname, wellFormedArgs_iff.2 hwf⟩, ?_⟩, rfl⟩
      simp [Expr.unnumbered, Expr.unnumberedArgs_eq, hraw]
  · refine (h.between he.leaves _ _).bind (he.leaves.between _ _).leaves fun r hr => ?_
    exact gives_pure ⟨⟨hr.1, by simp [Expr.unnumbered, hr.2]⟩, rfl⟩

def GivenSuffix : Suffix → Prop
  | .index position => Given position
  | .member field => ProperName field
  | _ => True

theorem gives_suffix (h : Gives n e Given) (he : Takes e) : Gives (n + 1) (suffix e) GivenSuffix := by
  refine Yields.orElse ?_ (Yields.orElse ?_ (Yields.orElse ?_ ?_))
  · exact (h.between he.leaves _ _).bind (he.leaves.between _ _).leaves fun _ hi => gives_pure hi
  · exact (gives_any _).bind (takes_next _).leaves fun _ _ =>
      gives_ident.bind (takes_next _).leaves fun _ hf => gives_pure hf
  · exact (gives_any _).bind (takes_next _).leaves fun _ _ => gives_pure trivial
  · exact (gives_any _).bind (takes_next _).leaves fun _ _ => gives_pure trivial

theorem given_suffixes {list : List Suffix} {base : Expr} (hbase : Given base ∧ base.level = 0)
    (hlist : ∀ s ∈ list, GivenSuffix s) :
    Given (list.foldl Suffix.apply base) ∧ (list.foldl Suffix.apply base).level = 0 := by
  induction list generalizing base with
  | nil => exact hbase
  | cons s list ih =>
    refine ih ?_ fun t ht => hlist t (List.mem_cons_of_mem _ ht)
    obtain ⟨⟨hwf, hraw⟩, hlevel⟩ := hbase
    have hs := hlist s List.mem_cons_self
    cases s with
    | index i => exact ⟨⟨⟨hwf, hs.1, hlevel⟩, by simp [Suffix.apply, Expr.unnumbered, hraw, hs.2]⟩, rfl⟩
    | member f => exact ⟨⟨⟨hwf, hs, hlevel⟩, by simp [Suffix.apply, Expr.unnumbered, hraw]⟩, rfl⟩
    | inc | dec =>
      refine ⟨⟨⟨hwf, ?_⟩, by simp [Suffix.apply, Expr.unnumbered, hraw]⟩, rfl⟩
      simp [UnaryOp.isPostfix, hlevel]

theorem gives_signOp : Gives n signOp fun op => op.isPostfix = false := by
  refine gives_next fun t op _ h => ?_
  split at h <;> simp at h <;> subst h <;> rfl

theorem given_signs {ops : List UnaryOp} {operand : Expr} (hoperand : Given operand)
    (hlevel : operand.level ≤ 1) (hops : ∀ op ∈ ops, op.isPostfix = false) :
    Given (ops.foldr (fun op e => .unary .unassigned op e) operand) ∧
      (ops.foldr (fun op e => Expr.unary .unassigned op e) operand).level ≤ 1 := by
  induction ops with
  | nil => exact ⟨hoperand, hlevel⟩
  | cons op ops ih =>
    obtain ⟨⟨hwf, hraw⟩, hle⟩ := ih fun o ho => hops o (List.mem_cons_of_mem _ ho)
    have hop := hops op List.mem_cons_self
    refine ⟨⟨⟨hwf, by simpa [hop] using hle⟩, ?_⟩, by simp [Expr.level, hop]⟩
    simpa [Expr.unnumbered] using hraw

theorem gives_unary (h : Gives n e Given) (he : Takes e) :
    Gives (n + 1) (unary limit e) fun r => Given r ∧ r.level ≤ 1 := by
  refine (gives_signOp.many (takes_next _).leaves limit).bind ((takes_next _).leaves.many limit)
    fun ops hops => ?_
  refine Yields.bind ?_ (takes_withSuffixes he).leaves fun r (hr : Given r ∧ r.level = 0) =>
    gives_pure (given_signs hr.1 (by omega) hops)
  refine (gives_primary h he).bind (takes_primary he).leaves fun base hbase => ?_
  have hsuffix := takes_suffix he
  refine ((gives_suffix h he).many hsuffix.leaves limit).bind (hsuffix.leaves.many limit)
    fun list hlist => gives_pure (given_suffixes hbase hlist)

theorem gives_binaryOp (level : Nat) : Gives n (binaryOp level) fun op => op.level = level := by
  refine gives_next fun t op _ h => ?_
  have hfilter := (Option.filter_eq_some_iff.1 h).2
  exact of_decide_eq_true hfilter

theorem given_operands {first : Expr} {rest : List (BinaryOp × Expr)} {level : Nat}
    (hfirst : Given first ∧ first.level ≤ level + 2)
    (hrest : ∀ x ∈ rest, x.1.level = level + 1 ∧ Given x.2 ∧ x.2.level ≤ level + 1) :
    Given (rest.foldl (fun l (op, r) => .binary .unassigned op l r) first) ∧
      (rest.foldl (fun l (op, r) => Expr.binary .unassigned op l r) first).level ≤ level + 2 := by
  induction rest generalizing first with
  | nil => exact hfirst
  | cons x rest ih =>
    obtain ⟨op, r⟩ := x
    obtain ⟨⟨hwf, hraw⟩, hle⟩ := hfirst
    obtain ⟨hop, ⟨hrwf, hrraw⟩, hrle⟩ := hrest (op, r) List.mem_cons_self
    dsimp only at hop hrwf hrraw hrle
    refine ih ⟨⟨⟨hwf, hrwf, by omega, by omega⟩, ?_⟩, ?_⟩ fun y hy =>
      hrest y (List.mem_cons_of_mem _ hy)
    · simp [Expr.unnumbered, hraw, hrraw]
    · simp [Expr.level, hop]

theorem gives_binary (h : Gives n e Given) (he : Takes e) (level : Nat) :
    Gives (n + 1) (binary limit e level) fun r => Given r ∧ r.level ≤ level + 1 := by
  induction level with
  | zero => exact gives_unary h he
  | succ level ih =>
    have htakes : Takes (binary limit e level) := takes_binary he level
    have hoperand : Gives (n + 1) (do return (← binaryOp (level + 1), ← binary limit e level))
        fun x => x.1.level = level + 1 ∧ Given x.2 ∧ x.2.level ≤ level + 1 :=
      (gives_binaryOp _).bind (takes_next _).leaves fun op hop =>
        ih.bind htakes.leaves fun r hr => gives_pure ⟨hop, hr⟩
    have hleaves := (takes_operand htakes (level + 1)).leaves
    refine ih.bind htakes.leaves fun first hfirst => ?_
    refine (hoperand.many hleaves limit).bind (hleaves.many limit) fun rest hrest => ?_
    exact gives_pure (given_operands ⟨hfirst.1, by omega⟩ hrest)

end

/-- No assignment can be read from the tokens. -/
def NoAssignment (ts : List Token) : Prop :=
  ∀ limit, ts.length ≤ limit → (do return (← assignOp, ← expr limit) : Reader _) ts = none

theorem noAssignment_of_none {ts : List Token} {limit : Nat} (hl : ts.length ≤ limit)
    (h : (do return (← assignOp, ← expr limit) : Reader _) ts = none) : NoAssignment ts := by
  intro limit' hl'
  have hagree : Agree (ts.length + 1) (do return (← assignOp, ← expr limit) : Reader _)
      (do return (← assignOp, ← expr limit')) :=
    Agree.rfl.bind_takes (takes_next _) fun _ =>
      (agree_expr ts.length hl hl').bind (takes_expr limit).leaves fun _ => Agree.rfl
  rw [← hagree ts (by omega), h]

/-- What reading an expression yields: all that could be assigned to it is in it. -/
def YieldsExpr (limit : Nat) : Prop :=
  Yields limit (expr limit) fun e rest => Given e ∧ NoAssignment rest

theorem YieldsExpr.gives {limit : Nat} (h : YieldsExpr limit) : Gives limit (expr limit) Given :=
  h.imp fun _ _ he => he.1

theorem conditional_given {limit : Nat} (h : YieldsExpr limit) {ts rest : List Token} {r : Expr}
    (hts : ts.length ≤ limit) (hproper : ProperTokens ts)
    (hr : conditional limit (expr limit) ts = some (r, rest)) :
    Given r ∧ (r.level ≤ BinaryOp.loosest + 1 ∨ NoAssignment rest) := by
  obtain ⟨cond, mid, hcond, hr⟩ := Reader.bind_eq_some hr
  have he := takes_expr limit
  obtain ⟨hsuffix, hlen⟩ := takes_binary he _ ts cond mid hcond
  obtain ⟨hgiven, hlevel⟩ := gives_binary h.gives he _ ts cond mid (by omega) hproper hcond
  rcases Reader.optional_bind hr with ⟨⟨yes, no⟩, ts', hb, hr⟩ | ⟨-, hr⟩
  · obtain ⟨rfl, rfl⟩ := Prod.mk.inj (Option.some.inj hr)
    obtain ⟨_, ts1, h1, hb⟩ := Reader.bind_eq_some hb
    obtain ⟨yes', ts2, h2, hb⟩ := Reader.bind_eq_some hb
    obtain ⟨_, ts3, h3, hb⟩ := Reader.bind_eq_some hb
    obtain ⟨no', ts4, h4, hb⟩ := Reader.bind_eq_some hb
    cases hb
    obtain ⟨hs1, hl1⟩ := takes_next _ mid () ts1 h1
    obtain ⟨hs2, hl2⟩ := he ts1 yes ts2 h2
    obtain ⟨hs3, hl3⟩ := takes_next _ ts2 () ts3 h3
    have hp1 := (hproper.suffix hsuffix).suffix hs1
    obtain ⟨hyes, -⟩ := h ts1 yes ts2 (by omega) hp1 h2
    obtain ⟨hno, hend⟩ := h ts3 no ts' (by omega) ((hp1.suffix hs2).suffix hs3) h4
    refine ⟨⟨⟨hgiven.1, hyes.1, hno.1, hlevel⟩, ?_⟩, .inr hend⟩
    simp [Expr.unnumbered, hgiven.2, hyes.2, hno.2]
  · obtain ⟨rfl, rfl⟩ := Prod.mk.inj (Option.some.inj hr)
    exact ⟨hgiven, .inl hlevel⟩

/-- A conditional takes an assignment after it into its last part, so that what is assigned to
binds more tightly. -/
theorem yieldsExpr (limit : Nat) : YieldsExpr limit := by
  induction limit with
  | zero => exact fun ts e rest hts => absurd hts (by omega)
  | succ limit ih =>
    intro ts r rest hts hproper hr
    obtain ⟨lhs, mid, hlhs, hr⟩ := Reader.bind_eq_some hr
    have he := takes_expr limit
    obtain ⟨hsuffix, hlen⟩ := takes_conditional he ts lhs mid hlhs
    obtain ⟨hgiven, hlevel⟩ := conditional_given ih (by omega) hproper hlhs
    rcases Reader.optional_bind hr with ⟨⟨op, rhs⟩, ts', ha, hr⟩ | ⟨hnone, hr⟩
    · obtain ⟨rfl, rfl⟩ := Prod.mk.inj (Option.some.inj hr)
      have htight : lhs.level ≤ BinaryOp.loosest + 1 :=
        hlevel.resolve_right fun hno => by
          rw [hno limit (by omega)] at ha
          cases ha
      obtain ⟨op', ts1, h1, ha⟩ := Reader.bind_eq_some ha
      obtain ⟨rhs', ts2, h2, ha⟩ := Reader.bind_eq_some ha
      cases ha
      obtain ⟨hs1, hl1⟩ := takes_next _ mid op ts1 h1
      obtain ⟨hrhs, hend⟩ := ih ts1 rhs ts' (by omega) ((hproper.suffix hsuffix).suffix hs1) h2
      refine ⟨⟨⟨hgiven.1, hrhs.1, htight⟩, ?_⟩, hend⟩
      simp [Expr.unnumbered, hgiven.2, hrhs.2]
    · obtain ⟨rfl, rfl⟩ := Prod.mk.inj (Option.some.inj hr)
      exact ⟨hgiven, noAssignment_of_none (by omega) hnone⟩

theorem gives_expr (limit : Nat) : Gives limit (expr limit) Given := (yieldsExpr limit).gives

theorem gives_layoutItem : Gives n layoutItem LayoutItem.WellFormed := by
  have hvalue : Gives n layoutValue fun v => v.toNat < 2147483648 := by
    refine gives_next fun t v _ h => ?_
    split at h
    · split at h
      next hpos => exact Option.some.inj h ▸ toUInt32_lt hpos
      next => simp at h
    · simp at h
  have hassigned : Gives n (do symbol .assign; layoutValue) fun v => v.toNat < 2147483648 :=
    (gives_any _).bind (takes_next _).leaves fun _ _ => hvalue
  have hleaves : Leaves (do symbol .assign; layoutValue) :=
    (takes_next _).leaves.bind fun _ => (takes_next _).leaves
  exact gives_ident.bind (takes_next _).leaves fun name hname =>
    hassigned.optional.bind hleaves.optional fun value hvalue => gives_pure ⟨hname, hvalue⟩

theorem gives_qualifier (limit : Nat) : Gives n (qualifier limit) Qualifier.WellFormed := by
  refine Yields.orElse ?_ (Yields.orElse ?_ ?_)
  · refine gives_next fun t q _ h => ?_
    split at h <;> simp at h <;> subst h <;> trivial
  · exact (gives_any _).bind (takes_next _).leaves fun _ _ => gives_pure trivial
  · refine (gives_any _).bind (takes_next _).leaves fun _ _ => ?_
    have hitems := (gives_layoutItem (n := n)).commaList1 takes_layoutItem.leaves limit
    have hleaves := (takes_layoutItem.commaList1 limit).leaves
    exact ((hitems.between hleaves _ _).mono (Nat.le_succ n)).bind (hleaves.between _ _).leaves
      fun _ h => gives_pure h

theorem gives_qualifiedType (limit : Nat) :
    Gives n (qualifiedType limit) QualifiedType.WellFormed := by
  have hleaves := (takes_qualifier limit).leaves
  exact ((gives_qualifier limit).many hleaves limit).bind (hleaves.many limit) fun _ hq =>
    (gives_any _).bind (takes_next _).leaves fun _ _ => gives_pure hq

theorem map_option_eq_self {f : α → α} {o : Option α} (h : ∀ a ∈ o, f a = a) : o.map f = o := by
  cases o with
  | none => rfl
  | some a => simp [h a rfl]

theorem gives_arraySuffix (limit : Nat) :
    Gives limit (arraySuffix limit) fun a => a.WellFormed ∧ a.unnumbered = a := by
  have hsize := (gives_expr limit).optional.between (takes_expr limit).leaves.optional .lbracket
    .rbracket
  refine (hsize.mono (Nat.le_succ limit)).bind
    ((takes_expr limit).leaves.optional.between _ _).leaves fun size h => gives_pure ⟨?_, ?_⟩
  · exact fun e he => (h e he).1
  · simp [ArraySuffix.unnumbered, map_option_eq_self fun e he => (h e he).2]

theorem gives_declarator (limit : Nat) :
    Gives limit (declarator limit) fun d => d.WellFormed ∧ d.unnumbered = d := by
  refine gives_ident.bind (takes_next _).leaves fun name hname => ?_
  refine (gives_arraySuffix limit).optional.bind (takes_arraySuffix limit).leaves.optional
    fun array harray => ?_
  have hinit : Gives limit (do symbol .assign; expr limit) Given :=
    (gives_any _).bind (takes_next _).leaves fun _ _ => gives_expr limit
  refine hinit.optional.bind (takes_init limit).leaves.optional fun init hinit => gives_pure ?_
  refine ⟨⟨hname, fun a ha => (harray a ha).1, fun e he => (hinit e he).1⟩, ?_⟩
  simp [Declarator.unnumbered, map_option_eq_self fun a ha => (harray a ha).2,
    map_option_eq_self fun e he => (hinit e he).2]

theorem gives_variableList (limit : Nat) :
    Gives limit (variableList limit) fun v => v.WellFormed ∧ v.unnumbered = v := by
  have htakes := takes_declarator limit
  refine (gives_qualifiedType limit).bind (takes_qualifiedType limit).leaves fun type htype => ?_
  refine ((gives_declarator limit).commaList1 htakes.leaves limit).bind
    (htakes.commaList1 limit).leaves fun vars hvars => ?_
  refine (gives_any _).bind (takes_next _).leaves fun _ _ => gives_pure ?_
  refine ⟨⟨htype, hvars.1, fun d hd => (hvars.2 d hd).1⟩, ?_⟩
  simp [Variables.unnumbered, map_eq_self fun d hd => (hvars.2 d hd).2]

def GivenStmt (s : Stmt) : Prop := s.WellFormed ∧ s.unnumbered = s

/-- No branch for an `if` before them can be read from the tokens. -/
def NoElse (ts : List Token) : Prop :=
  ∀ limit, ts.length < limit → (do keyword .else_; stmt limit : Reader _) ts = none

theorem noElse_of_none {ts : List Token} {limit : Nat} (hl : ts.length < limit)
    (h : (do keyword .else_; stmt limit : Reader _) ts = none) : NoElse ts := by
  intro limit' hl'
  have hagree : Agree (ts.length + 1) (do keyword .else_; stmt limit : Reader _)
      (do keyword .else_; stmt limit') :=
    Agree.rfl.bind_takes (takes_next _) fun _ => agree_stmt ts.length (by omega) (by omega)
  rw [← hagree ts (by omega), h]

/-- A statement that the readers give, after which an `else` is not theirs. -/
def GivenClosed (s : Stmt) : Prop := GivenStmt s ∧ ¬s.Open

/-- A statement as the readers give it, and where it ends. -/
def StmtEnds (s : Stmt) (rest : List Token) : Prop := GivenStmt s ∧ (s.Open → NoElse rest)

theorem Yields.ends {p : Reader Stmt} (h : Gives n p GivenClosed) : Yields n p StmtEnds :=
  h.imp fun _ _ hs => ⟨hs.1, fun hopen => absurd hopen hs.2⟩

section

variable {limit : Nat}

theorem gives_declareStmt :
    Gives limit (declareStmt limit) fun s => GivenClosed s ∧ s.IsLoopInit := by
  refine (gives_variableList limit).bind (takes_variableList limit).leaves fun v hv =>
    gives_pure ⟨⟨⟨hv.1, ?_⟩, id⟩, trivial⟩
  simp [Stmt.unnumbered, hv.2]

theorem gives_exprStmt : Gives limit (exprStmt limit) fun s => GivenClosed s ∧ s.IsLoopInit := by
  refine (gives_expr limit).bind (takes_expr limit).leaves fun e he =>
    (gives_any _).bind (takes_next _).leaves fun _ _ => gives_pure ⟨⟨⟨he.1, ?_⟩, id⟩, trivial⟩
  simp [Stmt.unnumbered, he.2]

theorem gives_emptyStmt : Gives n emptyStmt fun s => GivenClosed s ∧ s.IsLoopInit :=
  (gives_any _).bind (takes_next _).leaves fun _ _ => gives_pure ⟨⟨⟨trivial, rfl⟩, id⟩, trivial⟩

theorem gives_loopInit : Gives limit (loopInit limit) fun s => GivenClosed s ∧ s.IsLoopInit :=
  gives_declareStmt.orElse (gives_exprStmt.orElse gives_emptyStmt)

theorem gives_returnStmt : Gives limit (returnStmt limit) GivenClosed := by
  refine (gives_any _).bind (takes_next _).leaves fun _ _ => ?_
  refine (gives_expr limit).optional.bind (takes_expr limit).leaves.optional fun value hvalue => ?_
  refine (gives_any _).bind (takes_next _).leaves fun _ _ => gives_pure ⟨⟨?_, ?_⟩, id⟩
  · exact fun e he => (hvalue e he).1
  · simp [Stmt.unnumbered, map_option_eq_self fun e he => (hvalue e he).2]

theorem gives_jumpStmt : Gives n jumpStmt GivenClosed :=
  (gives_any _).bind (takes_next _).leaves fun _ _ =>
    (gives_any _).bind (takes_next _).leaves fun _ _ => gives_pure ⟨⟨trivial, rfl⟩, id⟩

theorem gives_condition : Gives limit (condition limit) Given :=
  ((gives_expr limit).between (takes_expr limit).leaves _ _).mono (Nat.le_succ limit)

theorem wellFormedBody_iff {body : List Stmt} :
    Stmt.WellFormedBody body ↔ ∀ s ∈ body, s.WellFormed := by
  induction body with
  | nil => simp [Stmt.WellFormedBody]
  | cons s rest ih => simp [Stmt.WellFormedBody, ih]

/-- What reading a statement yields. The limit exceeds the number of tokens by two. -/
def YieldsStmt (limit : Nat) : Prop := Yields (limit - 1) (stmt limit) StmtEnds

theorem YieldsStmt.gives (h : YieldsStmt limit) : Gives (limit - 1) (stmt limit) GivenStmt :=
  h.imp fun _ _ hs => hs.1

theorem gives_body (h : YieldsStmt limit) :
    Gives limit (body limit (stmt limit)) fun list =>
      Stmt.WellFormedBody list ∧ Stmt.unnumberedBody list = list := by
  have hleaves := (takes_stmt limit).leaves
  have hbody := (h.gives.many hleaves limit).between (hleaves.many limit) .lbrace .rbrace
  refine (hbody.mono (by omega)).imp fun list _ hlist => ⟨?_, ?_⟩
  · exact wellFormedBody_iff.2 fun s hs => (hlist s hs).1
  · simpa [Stmt.unnumberedBody_eq] using map_eq_self fun s hs => (hlist s hs).2

theorem yields_ifStmt (h : YieldsStmt limit) :
    Yields limit (ifStmt limit (stmt limit)) StmtEnds := by
  refine Yields.mono (n := limit - 1 + 1) ?_ (by omega)
  refine (gives_any _).bind_takes (takes_next _) fun _ _ => ?_
  refine (gives_condition.mono (by omega)).bind (takes_condition limit).leaves fun cond hcond => ?_
  intro ts s rest hts hproper hr
  obtain ⟨yes, mid, hyes, hr⟩ := Reader.bind_eq_some hr
  obtain ⟨hsuffix, hlen⟩ := takes_stmt limit ts yes mid hyes
  obtain ⟨⟨hwf, hraw⟩, hend⟩ := h ts yes mid hts hproper hyes
  rcases Reader.optional_bind hr with ⟨no, ts', hno, hr⟩ | ⟨hnone, hr⟩
  · obtain ⟨rfl, rfl⟩ := Prod.mk.inj (Option.some.inj hr)
    have hclosed : ¬yes.Open := fun hopen => by
      rw [hend hopen limit (by omega)] at hno
      cases hno
    obtain ⟨_, ts1, h1, hno⟩ := Reader.bind_eq_some hno
    obtain ⟨hs1, hl1⟩ := takes_next _ mid () ts1 h1
    obtain ⟨⟨hnowf, hnoraw⟩, hnoend⟩ :=
      h ts1 no ts' (by omega) ((hproper.suffix hsuffix).suffix hs1) hno
    refine ⟨⟨⟨hcond.1, hwf, hnowf, hclosed⟩, ?_⟩, hnoend⟩
    simp [Stmt.unnumbered, hcond.2, hraw, hnoraw]
  · obtain ⟨rfl, rfl⟩ := Prod.mk.inj (Option.some.inj hr)
    refine ⟨⟨⟨hcond.1, hwf⟩, by simp [Stmt.unnumbered, hcond.2, hraw]⟩, fun _ => ?_⟩
    exact noElse_of_none (by omega) hnone

theorem Yields.wrap {p : Reader Stmt} {f : Stmt → Stmt} (h : Yields n p StmtEnds)
    (hf : ∀ s, GivenStmt s → GivenStmt (f s)) (hopen : ∀ s, (f s).Open → s.Open) :
    Yields n (do return f (← p)) StmtEnds := by
  intro ts s rest hts hproper hr
  obtain ⟨s', mid, hs', hr⟩ := Reader.bind_eq_some hr
  obtain ⟨rfl, rfl⟩ := Prod.mk.inj (Option.some.inj hr)
  obtain ⟨hgiven, hend⟩ := h ts s' mid hts hproper hs'
  exact ⟨hf s' hgiven, fun ho => hend (hopen s' ho)⟩

theorem yields_forStmt (h : YieldsStmt limit) :
    Yields limit (forStmt limit (stmt limit)) StmtEnds := by
  refine Yields.mono (n := limit - 1 + 1) ?_ (by omega)
  have hexpr := ((gives_expr limit).mono (Nat.sub_le limit 1)).optional
  have hleaves := (takes_expr limit).leaves.optional
  refine (gives_any _).bind_takes (takes_next _) fun _ _ => ?_
  refine (gives_any _).bind (takes_next _).leaves fun _ _ => ?_
  refine (gives_loopInit.mono (by omega)).bind (takes_loopInit limit).leaves fun init hinit => ?_
  refine hexpr.bind hleaves fun cond hcond => ?_
  refine (gives_any _).bind (takes_next _).leaves fun _ _ => ?_
  refine hexpr.bind hleaves fun step hstep => ?_
  refine (gives_any _).bind (takes_next _).leaves fun _ _ => ?_
  refine h.wrap (fun s hs => ⟨⟨hinit.1.1.1, hinit.2, ?_, ?_, hs.1⟩, ?_⟩) fun s ho => ho
  · exact fun e he => (hcond e he).1
  · exact fun e he => (hstep e he).1
  · simp [Stmt.unnumbered, hinit.1.1.2, hs.2, map_option_eq_self fun e he => (hcond e he).2,
      map_option_eq_self fun e he => (hstep e he).2]

theorem yields_whileStmt (h : YieldsStmt limit) :
    Yields limit (whileStmt limit (stmt limit)) StmtEnds := by
  refine Yields.mono (n := limit - 1 + 1) ?_ (by omega)
  refine (gives_any _).bind_takes (takes_next _) fun _ _ => ?_
  refine (gives_condition.mono (by omega)).bind (takes_condition limit).leaves fun cond hcond => ?_
  refine h.wrap (fun s hs => ⟨⟨hcond.1, hs.1⟩, ?_⟩) fun s ho => ho
  simp [Stmt.unnumbered, hcond.2, hs.2]

theorem gives_doStmt (h : YieldsStmt limit) :
    Gives limit (doStmt limit (stmt limit)) GivenClosed := by
  refine Yields.mono (n := limit - 1 + 1) ?_ (by omega)
  refine (gives_any _).bind_takes (takes_next _) fun _ _ => ?_
  refine h.gives.bind (takes_stmt limit).leaves fun s hs => ?_
  refine (gives_any _).bind (takes_next _).leaves fun _ _ => ?_
  refine (gives_condition.mono (by omega)).bind (takes_condition limit).leaves fun cond hcond => ?_
  refine (gives_any _).bind (takes_next _).leaves fun _ _ => gives_pure ⟨⟨⟨hs.1, hcond.1⟩, ?_⟩, id⟩
  simp [Stmt.unnumbered, hcond.2, hs.2]

end

theorem yieldsStmt (limit : Nat) : YieldsStmt limit := by
  induction limit with
  | zero => exact fun ts s rest hts => absurd hts (by omega)
  | succ limit ih =>
    have hblock : Gives limit (do return .block .unassigned (← body limit (stmt limit)))
        GivenClosed :=
      (gives_body ih).bind (((takes_stmt limit).leaves.many limit).between _ _).leaves
        fun list hlist => gives_pure ⟨⟨hlist.1, by simp [Stmt.unnumbered, hlist.2]⟩, id⟩
    have hdeclare : Gives limit (declareStmt limit) GivenClosed :=
      gives_declareStmt.imp fun _ _ hs => hs.1
    have hexpr : Gives limit (exprStmt limit) GivenClosed := gives_exprStmt.imp fun _ _ hs => hs.1
    have hempty : Gives limit emptyStmt GivenClosed := gives_emptyStmt.imp fun _ _ hs => hs.1
    exact hblock.ends.orElse <| (yields_ifStmt ih).orElse <| (yields_forStmt ih).orElse <|
      (yields_whileStmt ih).orElse <| (gives_doStmt ih).ends.orElse <|
      gives_returnStmt.ends.orElse <| gives_jumpStmt.ends.orElse <| hempty.ends.orElse <|
      hdeclare.ends.orElse hexpr.ends

section

variable (limit : Nat)

theorem gives_param : Gives limit (param limit) fun p => p.WellFormed ∧ p.unnumbered = p := by
  refine (gives_qualifiedType limit).bind (takes_qualifiedType limit).leaves fun type htype => ?_
  refine gives_ident.optional.bind (takes_next _).leaves.optional fun name hname => ?_
  refine (gives_arraySuffix limit).optional.bind (takes_arraySuffix limit).leaves.optional
    fun array harray => gives_pure ⟨⟨htype, hname, fun a ha => (harray a ha).1⟩, ?_⟩
  simp [Param.unnumbered, map_option_eq_self fun a ha => (harray a ha).2]

theorem takes_param : Takes (param limit) :=
  (takes_qualifiedType limit).bind fun _ => (takes_next _).leaves.optional.bind fun _ =>
    (takes_arraySuffix limit).leaves.optional.bind fun _ => leaves_pure _

theorem withoutVoid_sublist (params : List Param) : (withoutVoid params).Sublist params := by
  unfold withoutVoid
  split <;> simp

theorem withoutVoid_ne (params : List Param) :
    withoutVoid params ≠ [⟨⟨[], .void⟩, none, none⟩] := by
  unfold withoutVoid
  split
  · simp
  · next h => exact h

theorem leaves_functionBody : Leaves (functionBody limit) :=
  ((((takes_stmt limit).leaves.many limit).between _ _).leaves.bind fun _ => leaves_pure _).orElse
    ((takes_next _).leaves.bind fun _ => leaves_pure _)

theorem gives_function : Gives limit (function limit) fun d =>
    d.WellFormed ∧ d.unnumbered = d := by
  have hleaves := (takes_param limit).commaList limit
  have hparams := ((gives_param limit).commaList (takes_param limit).leaves limit).between hleaves .lparen .rparen
  refine (gives_qualifiedType limit).bind (takes_qualifiedType limit).leaves fun type htype => ?_
  refine gives_ident.bind (takes_next _).leaves fun name hname => ?_
  refine (hparams.mono (Nat.le_succ limit)).bind (hleaves.between _ _).leaves
    fun params hparams => ?_
  have hbody : Gives limit (functionBody limit) fun b =>
      (∀ list ∈ b, Stmt.WellFormedBody list) ∧ b.map Stmt.unnumberedBody = b := by
    refine Yields.orElse ?_ ?_
    · refine (gives_body (yieldsStmt limit)).bind
        (((takes_stmt limit).leaves.many limit).between _ _).leaves fun list hlist =>
        gives_pure ⟨?_, by simp [hlist.2]⟩
      rintro _ ⟨⟩
      exact hlist.1
    · exact (gives_any _).bind (takes_next _).leaves fun _ _ => gives_pure ⟨by simp, rfl⟩
  have hkept : ∀ p ∈ withoutVoid params, p.WellFormed ∧ p.unnumbered = p :=
    fun p hp => hparams p ((withoutVoid_sublist params).subset hp)
  refine hbody.bind (leaves_functionBody limit) fun b hb => gives_pure ⟨?_, ?_⟩
  · exact ⟨htype, hname, fun p hp => (hkept p hp).1, withoutVoid_ne params, hb.1⟩
  · simp [Declaration.unnumbered, Function.unnumbered, hb.2,
      map_eq_self fun p hp => (hkept p hp).2]

theorem gives_blockMember : Gives limit (blockMember limit) fun m =>
    m.WellFormed ∧ m.unnumbered = m := by
  refine (gives_qualifiedType limit).bind (takes_qualifiedType limit).leaves fun type htype => ?_
  refine gives_ident.bind (takes_next _).leaves fun name hname => ?_
  refine (gives_arraySuffix limit).optional.bind (takes_arraySuffix limit).leaves.optional
    fun array harray => (gives_any _).bind (takes_next _).leaves fun _ _ =>
      gives_pure ⟨⟨htype, hname, fun a ha => (harray a ha).1⟩, ?_⟩
  simp [BlockMember.unnumbered, map_option_eq_self fun a ha => (harray a ha).2]

theorem takes_blockMember : Takes (blockMember limit) :=
  (takes_qualifiedType limit).bind fun _ => (takes_next _).leaves.bind fun _ =>
    (takes_arraySuffix limit).leaves.optional.bind fun _ => (takes_next _).leaves.bind
    fun _ => leaves_pure _

theorem gives_interfaceBlock : Gives limit (interfaceBlock limit) fun d =>
    d.WellFormed ∧ d.unnumbered = d := by
  have hqualifier := (takes_qualifier limit)
  have hleaves := (takes_blockMember limit).leaves.many limit
  have hmembers := ((gives_blockMember limit).many (takes_blockMember limit).leaves limit).between hleaves
    .lbrace .rbrace
  refine ((gives_qualifier limit).many1 hqualifier.leaves limit).bind
    (hqualifier.many1 limit).leaves fun qs hqs => ?_
  refine gives_ident.bind (takes_next _).leaves fun name hname => ?_
  refine (hmembers.mono (Nat.le_succ limit)).bind (hleaves.between _ _).leaves
    fun members hmembers => ?_
  refine gives_ident.optional.bind (takes_next _).leaves.optional fun inst hinst => ?_
  refine (gives_any _).bind (takes_next _).leaves fun _ _ => gives_pure ⟨?_, ?_⟩
  · exact ⟨hqs.1, hqs.2, hname, fun m hm => (hmembers m hm).1, hinst⟩
  · simp [Declaration.unnumbered, map_eq_self fun m hm => (hmembers m hm).2]

theorem gives_declaration : Gives limit (declaration limit) fun d =>
    d.WellFormed ∧ d.unnumbered = d := by
  have hqualifier := (takes_qualifier limit)
  refine Yields.orElse ?_ (Yields.orElse ?_ ((gives_function limit).orElse ((gives_interfaceBlock limit).orElse
    (Yields.orElse ?_ ?_))))
  · refine gives_next fun t d ht h => ?_
    cases t with
    | directive text =>
      obtain rfl := Option.some.inj h
      exact ⟨ht, rfl⟩
    | _ => simp at h
  · exact (gives_any _).bind (takes_next _).leaves fun _ _ =>
      (gives_any _).bind (takes_next _).leaves fun _ _ =>
      (gives_any _).bind (takes_next _).leaves fun _ _ =>
      (gives_any _).bind (takes_next _).leaves fun _ _ => gives_pure ⟨trivial, rfl⟩
  · refine (gives_variableList limit).bind (takes_variableList limit).leaves fun v hv =>
      gives_pure ⟨hv.1, by simp [Declaration.unnumbered, hv.2]⟩
  · refine ((gives_qualifier limit).many1 hqualifier.leaves limit).bind
      (hqualifier.many1 limit).leaves fun qs hqs => ?_
    exact (gives_any _).bind (takes_next _).leaves fun _ _ => gives_pure ⟨hqs, rfl⟩

theorem leaves_declaration : Leaves (declaration limit) := by
  have hqualifier := ((takes_qualifier limit).many1 limit).leaves
  refine (takes_next _).leaves.orElse (Leaves.orElse ?_ (Leaves.orElse ?_ (Leaves.orElse ?_
    (Leaves.orElse ?_ ?_))))
  · exact (takes_next _).leaves.bind fun _ => (takes_next _).leaves.bind fun _ =>
      (takes_next _).leaves.bind fun _ => (takes_next _).leaves.bind fun _ => leaves_pure _
  · exact (takes_qualifiedType limit).leaves.bind fun _ => (takes_next _).leaves.bind fun _ =>
      (((takes_param limit).commaList limit).between _ _).leaves.bind fun _ =>
      (leaves_functionBody limit).bind fun _ => leaves_pure _
  · exact hqualifier.bind fun _ => (takes_next _).leaves.bind fun _ =>
      (((takes_blockMember limit).leaves.many limit).between _ _).leaves.bind fun _ =>
      (takes_next _).leaves.optional.bind fun _ => (takes_next _).leaves.bind fun _ =>
      leaves_pure _
  · exact (takes_variableList limit).leaves.bind fun _ => leaves_pure _
  · exact hqualifier.bind fun _ => (takes_next _).leaves.bind fun _ => leaves_pure _

end

end ShaderLift.Grammar

namespace ShaderLift

/-- The shaders that tokens spell are well-formed and have no identities. -/
theorem Shader.ofTokens?_given {tokens : List Token} {s : Shader}
    (hproper : Grammar.ProperTokens tokens) (h : ofTokens? tokens = some s) :
    s.WellFormed ∧ s.unnumbered = s := by
  simp only [ofTokens?] at h
  split at h
  · next declarations hd =>
    obtain rfl := Option.some.inj h
    have hgiven := (Grammar.gives_declaration _).many (Grammar.leaves_declaration _) _ tokens
      declarations [] (Nat.lt_succ_self _) hproper hd
    refine ⟨fun d hd => (hgiven d hd).1, ?_⟩
    simp [unnumbered, map_eq_self fun d hd => (hgiven d hd).2]
  · simp at h

end ShaderLift
