import Mathlib
import ShaderLift.Grammar.Shader

/-!
Readers as functions of their tokens: what each combinator comes to, that readers leave an end of
what they are given, and that the limit does not matter once it exceeds the number of tokens.
-/

namespace ShaderLift.Grammar

variable {α β : Type} {n k : Nat}

namespace Reader

@[simp] theorem bind_apply (p : Reader α) (f : α → Reader β) (ts : List Token) :
    (p >>= f) ts = (p ts).bind fun x => f x.1 x.2 := rfl

@[simp] theorem pure_apply (a : α) (ts : List Token) : (pure a : Reader α) ts = some (a, ts) := rfl

@[simp] theorem map_apply (f : α → β) (p : Reader α) (ts : List Token) :
    (f <$> p) ts = (p ts).map fun x => (f x.1, x.2) := by
  cases h : p ts <;> simp [Functor.map, StateT.map, h]

@[simp] theorem failure_apply (ts : List Token) : (failure : Reader α) ts = none := rfl

@[simp] theorem orElse_apply (p q : Reader α) (ts : List Token) :
    (p <|> q) ts = (p ts).or (q ts) := by
  cases h : p ts <;> simp [HOrElse.hOrElse, OrElse.orElse, Alternative.orElse, StateT.orElse, h]

theorem optional_apply (p : Reader α) (ts : List Token) :
    optional p ts = some ((p ts).map Prod.fst, (p ts).elim ts Prod.snd) := by
  cases h : p ts <;> simp [optional, h]

theorem bind_eq_some {p : Reader α} {f : α → Reader β} {ts rest : List Token} {b : β}
    (h : (p >>= f) ts = some (b, rest)) :
    ∃ a mid, p ts = some (a, mid) ∧ f a mid = some (b, rest) := by
  obtain ⟨⟨a, mid⟩, ha, hb⟩ := Option.bind_eq_some_iff.1 h
  exact ⟨a, mid, ha, hb⟩

theorem optional_bind {p : Reader α} {f : Option α → Reader β} {ts rest : List Token} {b : β}
    (h : (optional p >>= f) ts = some (b, rest)) :
    (∃ a mid, p ts = some (a, mid) ∧ f (some a) mid = some (b, rest)) ∨
      (p ts = none ∧ f none ts = some (b, rest)) := by
  rw [bind_apply, optional_apply] at h
  cases hp : p ts with
  | none => exact .inr ⟨rfl, by simpa [hp] using h⟩
  | some r => exact .inl ⟨r.1, r.2, rfl, by simpa [hp] using h⟩

end Reader

/-- The reader leaves an end of its tokens. -/
def Leaves (p : Reader α) : Prop := ∀ ts a rest, p ts = some (a, rest) → rest <:+ ts

/-- The reader leaves an end of its tokens and takes one at least. -/
def Takes (p : Reader α) : Prop :=
  ∀ ts a rest, p ts = some (a, rest) → rest <:+ ts ∧ rest.length < ts.length

theorem Takes.leaves {p : Reader α} (hp : Takes p) : Leaves p :=
  fun ts a rest h => (hp ts a rest h).1

theorem Takes.nil {p : Reader α} (hp : Takes p) : p [] = none := by
  cases h : p [] with
  | none => rfl
  | some r => exact absurd (hp [] r.1 r.2 h).2 (by simp)

theorem leaves_pure (a : α) : Leaves (pure a : Reader α) := by
  intro ts b rest h
  simp only [Reader.pure_apply, Option.some.injEq, Prod.mk.injEq] at h
  exact h.2 ▸ List.suffix_refl _

theorem takes_failure : Takes (failure : Reader α) := by
  intro ts a rest h
  simp at h

theorem takes_next (select : Token → Option α) : Takes (next select) := by
  intro ts a rest h
  cases ts with
  | nil => simp [next] at h
  | cons t ts =>
    obtain ⟨b, -, hb⟩ := Option.map_eq_some_iff.1 h
    obtain ⟨rfl, rfl⟩ := Prod.mk.inj hb
    exact ⟨List.suffix_cons t ts, by simp⟩

theorem Leaves.bind {p : Reader α} {f : α → Reader β} (hp : Leaves p)
    (hf : ∀ a, Leaves (f a)) : Leaves (p >>= f) := by
  intro ts b rest h
  obtain ⟨a, mid, ha, hb⟩ := Reader.bind_eq_some h
  exact (hf a mid b rest hb).trans (hp ts a mid ha)

theorem Takes.bind {p : Reader α} {f : α → Reader β} (hp : Takes p)
    (hf : ∀ a, Leaves (f a)) : Takes (p >>= f) := by
  intro ts b rest h
  obtain ⟨a, mid, ha, hb⟩ := Reader.bind_eq_some h
  have hrest := hf a mid b rest hb
  obtain ⟨hmid, hlt⟩ := hp ts a mid ha
  exact ⟨hrest.trans hmid, Nat.lt_of_le_of_lt hrest.length_le hlt⟩

theorem Leaves.bind_takes {p : Reader α} {f : α → Reader β} (hp : Leaves p)
    (hf : ∀ a, Takes (f a)) : Takes (p >>= f) := by
  intro ts b rest h
  obtain ⟨a, mid, ha, hb⟩ := Reader.bind_eq_some h
  have hmid := hp ts a mid ha
  obtain ⟨hrest, hlt⟩ := hf a mid b rest hb
  exact ⟨hrest.trans hmid, Nat.lt_of_lt_of_le hlt hmid.length_le⟩

theorem Leaves.orElse {p q : Reader α} (hp : Leaves p) (hq : Leaves q) : Leaves (p <|> q) := by
  intro ts a rest h
  rw [Reader.orElse_apply, Option.or_eq_some_iff] at h
  rcases h with h | ⟨-, h⟩
  · exact hp ts a rest h
  · exact hq ts a rest h

theorem Takes.orElse {p q : Reader α} (hp : Takes p) (hq : Takes q) : Takes (p <|> q) := by
  intro ts a rest h
  rw [Reader.orElse_apply, Option.or_eq_some_iff] at h
  rcases h with h | ⟨-, h⟩
  · exact hp ts a rest h
  · exact hq ts a rest h

theorem Leaves.optional {p : Reader α} (hp : Leaves p) : Leaves (optional p) := by
  intro ts a rest h
  rw [Reader.optional_apply] at h
  cases hr : p ts with
  | none =>
    simp only [hr, Option.elim_none, Option.some.injEq, Prod.mk.injEq] at h
    exact h.2 ▸ List.suffix_refl _
  | some r =>
    simp only [hr, Option.elim_some, Option.some.injEq, Prod.mk.injEq] at h
    exact h.2 ▸ hp ts r.1 r.2 hr

theorem Leaves.many {p : Reader α} (hp : Leaves p) (limit : Nat) : Leaves (many limit p) := by
  induction limit with
  | zero => exact leaves_pure []
  | succ limit ih =>
    exact (hp.bind fun a => ih.bind fun as => leaves_pure _).orElse (leaves_pure [])

theorem Takes.many1 {p : Reader α} (hp : Takes p) (limit : Nat) : Takes (many1 limit p) :=
  hp.bind fun _ => (hp.leaves.many limit).bind fun _ => leaves_pure _

theorem Takes.commaList1 {p : Reader α} (hp : Takes p) (limit : Nat) :
    Takes (commaList1 limit p) :=
  hp.bind fun _ => (((takes_next _).leaves.bind fun _ => hp.leaves).many limit).bind
    fun _ => leaves_pure _

theorem Takes.commaList {p : Reader α} (hp : Takes p) (limit : Nat) :
    Leaves (commaList limit p) :=
  (hp.commaList1 limit).leaves.orElse (leaves_pure [])

theorem Leaves.between {p : Reader α} (hp : Leaves p) (left right : Symbol) :
    Takes (between left right p) :=
  (takes_next _).bind fun _ => hp.bind fun _ => (takes_next _).leaves.bind fun _ => leaves_pure _

/-- The readers give the same on fewer than `n` tokens. -/
def Agree (n : Nat) (p q : Reader α) : Prop := ∀ ts : List Token, ts.length < n → p ts = q ts

theorem Agree.rfl {p : Reader α} : Agree n p p := fun _ _ => Eq.refl _

theorem Agree.mono {p q : Reader α} (h : Agree n p q) (hk : k ≤ n) : Agree k p q :=
  fun ts hts => h ts (by omega)

theorem Agree.bind {p q : Reader α} {f g : α → Reader β} (h : Agree n p q) (hp : Leaves p)
    (hf : ∀ a, Agree n (f a) (g a)) : Agree n (p >>= f) (q >>= g) := by
  intro ts hts
  rw [Reader.bind_apply, Reader.bind_apply, ← h ts hts]
  cases hr : p ts with
  | none => rfl
  | some r =>
    have hlen := (hp ts r.1 r.2 hr).length_le
    exact hf r.1 r.2 (by omega)

theorem Agree.bind_takes {p q : Reader α} {f g : α → Reader β} (h : Agree (n + 1) p q)
    (hp : Takes p) (hf : ∀ a, Agree n (f a) (g a)) : Agree (n + 1) (p >>= f) (q >>= g) := by
  intro ts hts
  rw [Reader.bind_apply, Reader.bind_apply, ← h ts hts]
  cases hr : p ts with
  | none => rfl
  | some r =>
    have hlen := (hp ts r.1 r.2 hr).2
    exact hf r.1 r.2 (by omega)

theorem Agree.orElse {p q p' q' : Reader α} (hp : Agree n p p') (hq : Agree n q q') :
    Agree n (p <|> q) (p' <|> q') := by
  intro ts hts
  rw [Reader.orElse_apply, Reader.orElse_apply, hp ts hts, hq ts hts]

theorem Agree.optional {p q : Reader α} (h : Agree n p q) : Agree n (optional p) (optional q) := by
  intro ts hts
  rw [Reader.optional_apply, Reader.optional_apply, h ts hts]

theorem Agree.many {p q : Reader α} (h : Agree (n + 1) p q) (hp : Takes p) {l l' : Nat}
    (hl : n ≤ l) (hl' : n ≤ l') : Agree (n + 1) (many l p) (many l' q) := by
  induction n generalizing l l' with
  | zero =>
    intro ts hts
    obtain rfl : ts = [] := List.eq_nil_of_length_eq_zero (by omega)
    have hq : q [] = none := by rw [← h [] (by simp), hp.nil]
    cases l <;> cases l' <;> simp [Grammar.many, hp.nil, hq]
  | succ n ih =>
    obtain ⟨l, rfl⟩ := Nat.exists_eq_succ_of_ne_zero (n := l) (by omega)
    obtain ⟨l', rfl⟩ := Nat.exists_eq_succ_of_ne_zero (n := l') (by omega)
    have hrest : Agree (n + 1) (Grammar.many l p) (Grammar.many l' q) :=
      ih (h.mono (by omega)) (by omega) (by omega)
    exact (h.bind_takes hp fun a => hrest.bind (hp.leaves.many l) fun _ => Agree.rfl).orElse
      Agree.rfl

theorem Agree.commaList1 {p q : Reader α} (h : Agree (n + 1) p q) (hp : Takes p) {l l' : Nat}
    (hl : n ≤ l) (hl' : n ≤ l') : Agree (n + 1) (commaList1 l p) (commaList1 l' q) := by
  have hitem : Takes (do symbol .comma; p) := (takes_next _).bind fun _ => hp.leaves
  have hitems : Agree (n + 1) (do symbol .comma; p) (do symbol .comma; q) :=
    Agree.rfl.bind (takes_next _).leaves fun _ => h
  exact h.bind hp.leaves fun _ => (hitems.many hitem hl hl').bind (hitem.leaves.many l)
    fun _ => Agree.rfl

theorem Agree.commaList {p q : Reader α} (h : Agree (n + 1) p q) (hp : Takes p) {l l' : Nat}
    (hl : n ≤ l) (hl' : n ≤ l') : Agree (n + 1) (commaList l p) (commaList l' q) :=
  (h.commaList1 hp hl hl').orElse Agree.rfl

theorem Agree.between {p q : Reader α} (h : Agree n p q) (hp : Leaves p) (left right : Symbol) :
    Agree (n + 1) (between left right p) (between left right q) :=
  Agree.rfl.bind_takes (takes_next _) fun _ => h.bind hp fun _ => Agree.rfl

section

variable {limit limit' : Nat} {e e' : Reader Expr}

theorem takes_callOrName (he : Takes e) : Takes (callOrName limit e) := by
  refine (takes_next _).bind fun name => Leaves.bind ?_ fun args => ?_
  · exact ((he.commaList limit).between _ _).leaves.optional
  · cases args with
    | none => exact leaves_pure _
    | some args => exact leaves_pure _

theorem takes_primary (he : Takes e) : Takes (primary limit e) :=
  ((takes_next _).bind fun _ => leaves_pure _).orElse <|
    (takes_callOrName he).orElse ((he.leaves.between _ _).bind fun _ => leaves_pure _)

theorem takes_suffix (he : Takes e) : Takes (suffix e) :=
  ((he.leaves.between _ _).bind fun _ => leaves_pure _).orElse <|
    ((takes_next _).bind fun _ => (takes_next _).leaves.bind fun _ => leaves_pure _).orElse <|
    ((takes_next _).bind fun _ => leaves_pure _).orElse
      ((takes_next _).bind fun _ => leaves_pure _)

theorem takes_withSuffixes (he : Takes e) : Takes (withSuffixes limit e) :=
  (takes_primary he).bind fun _ => ((takes_suffix he).leaves.many limit).bind fun _ => leaves_pure _

theorem takes_unary (he : Takes e) : Takes (unary limit e) :=
  ((takes_next _).leaves.many limit).bind_takes fun _ =>
    (takes_withSuffixes he).bind fun _ => leaves_pure _

theorem takes_operand {p : Reader Expr} (hp : Takes p) (level : Nat) :
    Takes (do return (← binaryOp level, ← p)) :=
  (takes_next _).bind fun _ => hp.leaves.bind fun _ => leaves_pure _

theorem takes_binary (he : Takes e) (level : Nat) : Takes (binary limit e level) := by
  induction level with
  | zero => exact takes_unary he
  | succ level ih =>
    exact ih.bind fun _ => ((takes_operand ih _).leaves.many limit).bind fun _ => leaves_pure _

theorem takes_conditional (he : Takes e) : Takes (conditional limit e) := by
  refine (takes_binary he _).bind fun cond => Leaves.bind (Leaves.optional ?_) fun branches => ?_
  · exact (takes_next _).leaves.bind fun _ => he.leaves.bind fun _ => (takes_next _).leaves.bind
      fun _ => he.leaves.bind fun _ => leaves_pure _
  · cases branches with
    | none => exact leaves_pure _
    | some branches => exact leaves_pure _

theorem takes_assigned (he : Takes e) : Takes (do return (← assignOp, ← e)) :=
  (takes_next _).bind fun _ => he.leaves.bind fun _ => leaves_pure _

theorem takes_assignment (he : Takes e) : Takes (assignment limit e) := by
  refine (takes_conditional he).bind fun lhs => ?_
  refine (takes_assigned he).leaves.optional.bind fun assigned => ?_
  cases assigned with
  | none => exact leaves_pure _
  | some assigned => exact leaves_pure _

theorem takes_expr (limit : Nat) : Takes (expr limit) := by
  induction limit with
  | zero => exact takes_failure
  | succ limit ih => exact takes_assignment ih

theorem agree_primary (h : Agree n e e') (he : Takes e) (hl : n ≤ limit) (hl' : n ≤ limit') :
    Agree (n + 1) (primary limit e) (primary limit' e') := by
  have hargs : Agree n (commaList limit e) (commaList limit' e') := by
    cases n with
    | zero => exact fun ts hts => absurd hts (by omega)
    | succ n => exact h.commaList he (by omega) (by omega)
  have hcall : Agree (n + 1) (callOrName limit e) (callOrName limit' e') := by
    refine Agree.rfl.bind (takes_next _).leaves fun name => ?_
    exact (hargs.between (he.commaList limit) _ _).optional.bind
      ((he.commaList limit).between _ _).leaves.optional fun _ => Agree.rfl
  exact Agree.rfl.orElse <| hcall.orElse <|
    (h.between he.leaves _ _).bind (he.leaves.between _ _).leaves fun _ => Agree.rfl

theorem agree_suffix (h : Agree n e e') (he : Takes e) : Agree (n + 1) (suffix e) (suffix e') :=
  ((h.between he.leaves _ _).bind (he.leaves.between _ _).leaves fun _ => Agree.rfl).orElse
    Agree.rfl

theorem agree_unary (h : Agree n e e') (he : Takes e) (hl : n ≤ limit) (hl' : n ≤ limit') :
    Agree (n + 1) (unary limit e) (unary limit' e') := by
  refine (Agree.rfl.many (takes_next _) hl hl').bind ((takes_next _).leaves.many limit) fun _ => ?_
  refine Agree.bind ?_ (takes_withSuffixes he).leaves fun _ => Agree.rfl
  exact (agree_primary h he hl hl').bind (takes_primary he).leaves fun _ =>
    ((agree_suffix h he).many (takes_suffix he) hl hl').bind ((takes_suffix he).leaves.many limit)
      fun _ => Agree.rfl

theorem agree_binary (h : Agree n e e') (he : Takes e) (hl : n ≤ limit) (hl' : n ≤ limit')
    (level : Nat) : Agree (n + 1) (binary limit e level) (binary limit' e' level) := by
  induction level with
  | zero => exact agree_unary h he hl hl'
  | succ level ih =>
    have htakes : Takes (binary limit e level) := takes_binary he level
    have hoperand : Agree (n + 1) (do return (← binaryOp (level + 1), ← binary limit e level))
        (do return (← binaryOp (level + 1), ← binary limit' e' level)) :=
      Agree.rfl.bind (takes_next _).leaves fun _ => ih.bind htakes.leaves fun _ => Agree.rfl
    exact ih.bind htakes.leaves fun _ => (hoperand.many (takes_operand htakes _) hl hl').bind
      ((takes_operand htakes _).leaves.many limit) fun _ => Agree.rfl

theorem agree_assignment (h : Agree n e e') (he : Takes e) (hl : n ≤ limit) (hl' : n ≤ limit') :
    Agree (n + 1) (assignment limit e) (assignment limit' e') := by
  have hbranches : Leaves (do
      symbol .question
      let yes ← e
      symbol .colon
      return (yes, ← e)) :=
    (takes_next _).leaves.bind fun _ => he.leaves.bind fun _ => (takes_next _).leaves.bind
      fun _ => he.leaves.bind fun _ => leaves_pure _
  refine Agree.bind ?_ (takes_conditional he).leaves fun lhs => ?_
  · refine (agree_binary h he hl hl' _).bind (takes_binary he _).leaves fun cond => ?_
    refine Agree.bind (Agree.optional ?_) hbranches.optional fun _ => Agree.rfl
    exact Agree.rfl.bind_takes (takes_next _) fun _ => h.bind he.leaves fun _ =>
      Agree.rfl.bind (takes_next _).leaves fun _ => h.bind he.leaves fun _ => Agree.rfl
  · refine Agree.bind (Agree.optional ?_) (takes_assigned he).leaves.optional fun _ => Agree.rfl
    exact Agree.rfl.bind_takes (takes_next _) fun _ => h.bind he.leaves fun _ => Agree.rfl

end

theorem agree_expr (n : Nat) {limit limit' : Nat} (hl : n ≤ limit) (hl' : n ≤ limit') :
    Agree n (expr limit) (expr limit') := by
  induction n generalizing limit limit' with
  | zero => exact fun ts hts => absurd hts (by omega)
  | succ n ih =>
    obtain ⟨limit, rfl⟩ := Nat.exists_eq_succ_of_ne_zero (n := limit) (by omega)
    obtain ⟨limit', rfl⟩ := Nat.exists_eq_succ_of_ne_zero (n := limit') (by omega)
    exact agree_assignment (ih (by omega) (by omega)) (takes_expr limit) (by omega) (by omega)

theorem takes_layoutItem : Takes layoutItem :=
  (takes_next _).bind fun _ => ((takes_next _).leaves.bind fun _ =>
    (takes_next _).leaves).optional.bind fun _ => leaves_pure _

theorem takes_qualifier (limit : Nat) : Takes (qualifier limit) :=
  (takes_next _).orElse <| ((takes_next _).bind fun _ => leaves_pure _).orElse <|
    (takes_next _).bind fun _ =>
      ((takes_layoutItem.commaList1 limit).leaves.between _ _).leaves.bind fun _ => leaves_pure _

theorem takes_qualifiedType (limit : Nat) : Takes (qualifiedType limit) :=
  ((takes_qualifier limit).leaves.many limit).bind_takes fun _ =>
    (takes_next _).bind fun _ => leaves_pure _

theorem takes_arraySuffix (limit : Nat) : Takes (arraySuffix limit) :=
  ((takes_expr limit).leaves.optional.between _ _).bind fun _ => leaves_pure _

theorem takes_init (limit : Nat) : Takes (do symbol .assign; expr limit) :=
  (takes_next _).bind fun _ => (takes_expr limit).leaves

theorem takes_declarator (limit : Nat) : Takes (declarator limit) :=
  (takes_next _).bind fun _ => (takes_arraySuffix limit).leaves.optional.bind fun _ =>
    (takes_init limit).leaves.optional.bind fun _ => leaves_pure _

theorem takes_variableList (limit : Nat) : Takes (variableList limit) :=
  (takes_qualifiedType limit).bind fun _ => ((takes_declarator limit).commaList1 limit).leaves.bind
    fun _ => (takes_next _).leaves.bind fun _ => leaves_pure _

theorem takes_exprStmt (limit : Nat) : Takes (exprStmt limit) :=
  (takes_expr limit).bind fun _ => (takes_next _).leaves.bind fun _ => leaves_pure _

theorem takes_emptyStmt : Takes emptyStmt := (takes_next _).bind fun _ => leaves_pure _

theorem takes_declareStmt (limit : Nat) : Takes (declareStmt limit) :=
  (takes_variableList limit).bind fun _ => leaves_pure _

theorem takes_loopInit (limit : Nat) : Takes (loopInit limit) :=
  (takes_declareStmt limit).orElse <| (takes_exprStmt limit).orElse takes_emptyStmt

theorem takes_condition (limit : Nat) : Takes (condition limit) :=
  (takes_expr limit).leaves.between _ _

theorem takes_returnStmt (limit : Nat) : Takes (returnStmt limit) :=
  (takes_next _).bind fun _ => (takes_expr limit).leaves.optional.bind fun _ =>
    (takes_next _).leaves.bind fun _ => leaves_pure _

section

variable {limit limit' : Nat} {s s' : Reader Stmt}

theorem takes_otherwise (hs : Takes s) : Takes (do keyword .else_; s) :=
  (takes_next _).bind fun _ => hs.leaves

theorem takes_ifStmt (hs : Takes s) : Takes (ifStmt limit s) := by
  refine (takes_next _).bind fun _ => (takes_condition limit).leaves.bind fun cond => ?_
  refine hs.leaves.bind fun yes => (takes_otherwise hs).leaves.optional.bind fun no => ?_
  cases no with
  | none => exact leaves_pure _
  | some no => exact leaves_pure _

theorem takes_forStmt (hs : Takes s) : Takes (forStmt limit s) :=
  (takes_next _).bind fun _ => (takes_next _).leaves.bind fun _ =>
    (takes_loopInit limit).leaves.bind fun _ => (takes_expr limit).leaves.optional.bind fun _ =>
    (takes_next _).leaves.bind fun _ => (takes_expr limit).leaves.optional.bind fun _ =>
    (takes_next _).leaves.bind fun _ => hs.leaves.bind fun _ => leaves_pure _

theorem takes_anyStmt (hs : Takes s) : Takes (anyStmt limit s) := by
  have hbody : Takes (body limit s) := (hs.leaves.many limit).between _ _
  have hwhile : Takes (whileStmt limit s) :=
    (takes_next _).bind fun _ => (takes_condition limit).leaves.bind fun _ =>
      hs.leaves.bind fun _ => leaves_pure _
  have hdo : Takes (doStmt limit s) :=
    (takes_next _).bind fun _ => hs.leaves.bind fun _ => (takes_next _).leaves.bind fun _ =>
      (takes_condition limit).leaves.bind fun _ => (takes_next _).leaves.bind fun _ => leaves_pure _
  have hjump : Takes jumpStmt :=
    (takes_next _).bind fun _ => (takes_next _).leaves.bind fun _ => leaves_pure _
  exact (hbody.bind fun _ => leaves_pure _).orElse <| (takes_ifStmt hs).orElse <|
    (takes_forStmt hs).orElse <| hwhile.orElse <| hdo.orElse <|
    (takes_returnStmt limit).orElse <| hjump.orElse <| takes_emptyStmt.orElse <|
    (takes_declareStmt limit).orElse (takes_exprStmt limit)

end

theorem takes_stmt (limit : Nat) : Takes (stmt limit) := by
  induction limit with
  | zero => exact takes_failure
  | succ limit ih => exact takes_anyStmt ih

section

variable {limit limit' : Nat}

theorem agree_qualifiedType (hl : n ≤ limit) (hl' : n ≤ limit') :
    Agree (n + 1) (qualifiedType limit) (qualifiedType limit') := by
  have hqualifier : Agree (n + 1) (qualifier limit) (qualifier limit') := by
    refine Agree.rfl.orElse (Agree.rfl.orElse (Agree.rfl.bind (takes_next _).leaves fun _ => ?_))
    have hitems := Agree.rfl.commaList1 takes_layoutItem hl hl'
    have hleaves := (takes_layoutItem.commaList1 limit).leaves
    exact ((hitems.between hleaves _ _).mono (by omega)).bind (hleaves.between _ _).leaves
      fun _ => Agree.rfl
  exact (hqualifier.many (takes_qualifier limit) hl hl').bind
    ((takes_qualifier limit).leaves.many limit) fun _ => Agree.rfl

theorem agree_variableList (hl : n + 1 ≤ limit) (hl' : n + 1 ≤ limit') :
    Agree (n + 1) (variableList limit) (variableList limit') := by
  have hexpr := agree_expr (n + 1) hl hl'
  have hsuffix : Agree (n + 1) (arraySuffix limit) (arraySuffix limit') :=
    ((hexpr.optional.between (takes_expr limit).leaves.optional _ _).mono (by omega)).bind
      ((takes_expr limit).leaves.optional.between _ _).leaves fun _ => Agree.rfl
  have hinit : Agree (n + 1) (do symbol .assign; expr limit) (do symbol .assign; expr limit') :=
    Agree.rfl.bind (takes_next _).leaves fun _ => hexpr
  have hdeclarator : Agree (n + 1) (declarator limit) (declarator limit') :=
    Agree.rfl.bind (takes_next _).leaves fun _ =>
      hsuffix.optional.bind (takes_arraySuffix limit).leaves.optional fun _ =>
      hinit.optional.bind (takes_init limit).leaves.optional fun _ => Agree.rfl
  exact (agree_qualifiedType (by omega) (by omega)).bind (takes_qualifiedType limit).leaves
    fun _ => (hdeclarator.commaList1 (takes_declarator limit) (by omega) (by omega)).bind
      ((takes_declarator limit).commaList1 limit).leaves fun _ => Agree.rfl

theorem agree_condition (hl : n + 1 ≤ limit) (hl' : n + 1 ≤ limit') :
    Agree (n + 1) (condition limit) (condition limit') :=
  ((agree_expr (n + 1) hl hl').between (takes_expr limit).leaves _ _).mono (by omega)

theorem agree_exprStmt (hl : n + 1 ≤ limit) (hl' : n + 1 ≤ limit') :
    Agree (n + 1) (exprStmt limit) (exprStmt limit') :=
  (agree_expr (n + 1) hl hl').bind (takes_expr limit).leaves fun _ => Agree.rfl

theorem agree_declareStmt (hl : n + 1 ≤ limit) (hl' : n + 1 ≤ limit') :
    Agree (n + 1) (declareStmt limit) (declareStmt limit') :=
  (agree_variableList hl hl').bind (takes_variableList limit).leaves fun _ => Agree.rfl

variable {s s' : Reader Stmt}

theorem agree_ifStmt (h : Agree n s s') (hs : Takes s) (hl : n + 1 ≤ limit)
    (hl' : n + 1 ≤ limit') : Agree (n + 1) (ifStmt limit s) (ifStmt limit' s') := by
  have hotherwise : Agree n (do keyword .else_; s) (do keyword .else_; s') :=
    Agree.rfl.bind (takes_next _).leaves fun _ => h
  exact Agree.rfl.bind_takes (takes_next _) fun _ =>
    ((agree_condition hl hl').mono (by omega)).bind (takes_condition limit).leaves fun _ =>
    h.bind hs.leaves fun _ => hotherwise.optional.bind (takes_otherwise hs).leaves.optional
    fun _ => Agree.rfl

theorem agree_forStmt (h : Agree n s s') (hs : Takes s) (hl : n + 1 ≤ limit)
    (hl' : n + 1 ≤ limit') : Agree (n + 1) (forStmt limit s) (forStmt limit' s') := by
  have hexpr := (agree_expr (n + 1) hl hl').mono (Nat.le_succ n)
  have hinit : Agree (n + 1) (loopInit limit) (loopInit limit') :=
    (agree_declareStmt hl hl').orElse ((agree_exprStmt hl hl').orElse Agree.rfl)
  exact Agree.rfl.bind_takes (takes_next _) fun _ => Agree.rfl.bind (takes_next _).leaves fun _ =>
    (hinit.mono (by omega)).bind (takes_loopInit limit).leaves fun _ =>
    hexpr.optional.bind (takes_expr limit).leaves.optional fun _ =>
    Agree.rfl.bind (takes_next _).leaves fun _ =>
    hexpr.optional.bind (takes_expr limit).leaves.optional fun _ =>
    Agree.rfl.bind (takes_next _).leaves fun _ => h.bind hs.leaves fun _ => Agree.rfl

theorem agree_anyStmt (h : Agree n s s') (hs : Takes s) (hl : n + 1 ≤ limit)
    (hl' : n + 1 ≤ limit') : Agree (n + 1) (anyStmt limit s) (anyStmt limit' s') := by
  have hcond := (agree_condition hl hl').mono (Nat.le_succ n)
  have hmany : Agree n (many limit s) (many limit' s') := by
    cases n with
    | zero => exact fun ts hts => absurd hts (by omega)
    | succ n => exact h.many hs (by omega) (by omega)
  have hblock : Agree (n + 1) (body limit s) (body limit' s') :=
    hmany.between (hs.leaves.many limit) _ _
  have hwhile : Agree (n + 1) (whileStmt limit s) (whileStmt limit' s') :=
    Agree.rfl.bind_takes (takes_next _) fun _ => hcond.bind (takes_condition limit).leaves
      fun _ => h.bind hs.leaves fun _ => Agree.rfl
  have hdo : Agree (n + 1) (doStmt limit s) (doStmt limit' s') :=
    Agree.rfl.bind_takes (takes_next _) fun _ => h.bind hs.leaves fun _ =>
      Agree.rfl.bind (takes_next _).leaves fun _ => hcond.bind (takes_condition limit).leaves
      fun _ => Agree.rfl
  have hreturn : Agree (n + 1) (returnStmt limit) (returnStmt limit') :=
    Agree.rfl.bind (takes_next _).leaves fun _ => (agree_expr (n + 1) hl hl').optional.bind
      (takes_expr limit).leaves.optional fun _ => Agree.rfl
  exact (hblock.bind ((hs.leaves.many limit).between _ _).leaves fun _ => Agree.rfl).orElse <|
    (agree_ifStmt h hs hl hl').orElse <| (agree_forStmt h hs hl hl').orElse <| hwhile.orElse <|
    hdo.orElse <| hreturn.orElse <| Agree.rfl.orElse <| Agree.rfl.orElse <|
    (agree_declareStmt hl hl').orElse (agree_exprStmt hl hl')

end

/-- A statement can be read with a limit that exceeds the number of tokens by two. -/
theorem agree_stmt (n : Nat) {limit limit' : Nat} (hl : n + 1 ≤ limit) (hl' : n + 1 ≤ limit') :
    Agree n (stmt limit) (stmt limit') := by
  induction n generalizing limit limit' with
  | zero => exact fun ts hts => absurd hts (by omega)
  | succ n ih =>
    obtain ⟨limit, rfl⟩ := Nat.exists_eq_succ_of_ne_zero (n := limit) (by omega)
    obtain ⟨limit', rfl⟩ := Nat.exists_eq_succ_of_ne_zero (n := limit') (by omega)
    exact agree_anyStmt (ih (by omega) (by omega)) (takes_stmt limit) (by omega) (by omega)

end ShaderLift.Grammar
