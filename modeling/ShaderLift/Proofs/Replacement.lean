import Mathlib
import ShaderLift.Proofs.Substitution

/-!
Exchanging an expression of a shader. Where the identities are distinct, exchanging what a path leads
to is a substitution for one identity, and a look-up by an identity finds the one node that has it.
-/

namespace ShaderLift

variable {σ : Substitution}

theorem modify_eq_map {α : Type} {f g : α → α} {xs : List α} {i : Nat}
    (hi : ∀ x, xs[i]? = some x → g x = f x) (hj : ∀ j x, xs[j]? = some x → j ≠ i → f x = x) :
    xs.modify i g = xs.map f := by
  apply List.ext_getElem?
  intro j
  rw [List.getElem?_modify, List.getElem?_map]
  by_cases h : i = j
  · subst h
    cases hx : xs[i]? with
    | none => rfl
    | some x => simp [hi x hx]
  · cases hx : xs[j]? with
    | none => rfl
    | some x => simp [h, hj j x hx (Ne.symm h)]

theorem set_eq_map {α : Type} {f : α → α} {xs : List α} {i : Nat} {x : α} (hx : xs[i]? = some x)
    (hj : ∀ j y, xs[j]? = some y → j ≠ i → f y = y) : xs.set i (f x) = xs.map f := by
  rw [List.set_eq_modify]
  exact modify_eq_map (fun y hy => by rw [hx] at hy; cases hy; rfl) hj

/-- The children in slots other than the given one are left as they are. -/
def Substitution.SparesOthers (σ : Substitution) (children : List (Slot × Node)) (slot : Slot) :
    Prop :=
  ∀ c ∈ children, c.1 ≠ slot → c.2.substitute σ = c.2

theorem Expr.setChild_substitute {e c : Expr} {slot : Slot}
    (hc : (slot, .expression c) ∈ e.children) (ho : σ.SparesOthers e.children slot)
    (hroot : σ e.id = none) : e.setChild slot (c.substitute σ) = e.substitute σ := by
  cases e with
  | literal id v => simp [children] at hc
  | name id n => simp [children] at hc
  | call id f args =>
    simp only [children, mem_args] at hc
    obtain ⟨i, a, ha, rfl, heq⟩ := hc
    cases heq
    have hargs : args.set i (c.substitute σ) = args.map (substitute σ) := by
      refine set_eq_map ha fun j b hb hj => ?_
      have h := ho (.arg j, .expression b) (mem_args.2 ⟨j, b, hb, rfl, rfl⟩) (by simpa using hj)
      simpa [Node.substitute] using h
    simp only [Expr.id] at hroot
    simp [setChild, substitute, hroot, substituteArgs_eq, hargs]
  | _ =>
    simp only [Expr.id] at hroot
    simp [Substitution.SparesOthers, children, Node.substitute] at hc ho
    grind [setChild, substitute]

theorem mapSuffix_eq {f : Expr → Expr} {a : Option ArraySuffix}
    (h : ∀ e, a.bind ArraySuffix.size = some e → f e = e) :
    a.map (fun a => (⟨a.size.map f⟩ : ArraySuffix)) = a := by
  cases a with
  | none => rfl
  | some a =>
    obtain ⟨size⟩ := a
    cases size <;> simp_all

theorem setSize_eq {f : Expr → Expr} {a : Option ArraySuffix} {e : Expr}
    (h : a.bind ArraySuffix.size = some e) :
    a.map (ArraySuffix.setSize · (f e)) = a.map (fun a => (⟨a.size.map f⟩ : ArraySuffix)) := by
  cases a with
  | none => rfl
  | some a =>
    obtain ⟨size⟩ := a
    simp only [Option.bind_some] at h
    subst h
    rfl

theorem Variables.setChild_substitute {v : Variables} {slot : Slot} {e : Expr}
    (hc : (slot, .expression e) ∈ v.children) (ho : σ.SparesOthers v.children slot) :
    v.setChild slot (e.substitute σ) = v.substitute σ := by
  -- a declarator's size and initial value are in slots with its own number
  have harray : ∀ (j : Nat) (d : Declarator), v.vars[j]? = some d → Slot.arraySize j ≠ slot →
      d.array.map (ArraySuffix.substitute σ) = d.array := by
    intro j d hd hj
    refine mapSuffix_eq fun x hx => ?_
    have h := ho (.arraySize j, .expression x) (mem_children.2 ⟨j, d, hd, .inl ⟨rfl, x, hx, rfl⟩⟩) hj
    simpa [Node.substitute] using h
  have hinit : ∀ (j : Nat) (d : Declarator), v.vars[j]? = some d → Slot.init j ≠ slot →
      d.init.map (Expr.substitute σ) = d.init := by
    intro j d hd hj
    cases hx : d.init with
    | none => rfl
    | some x =>
      have h := ho (.init j, .expression x) (mem_children.2 ⟨j, d, hd, .inr ⟨rfl, x, hx, rfl⟩⟩) hj
      simpa [Node.substitute] using h
  obtain ⟨i, d, hd, ⟨rfl, x, hx, heq⟩ | ⟨rfl, x, hx, heq⟩⟩ := mem_children.1 hc
  · cases heq
    simp only [setChild, substitute, mk.injEq, true_and]
    refine modify_eq_map (fun d' hd' => ?_) fun j d' hd' hj => ?_
    · rw [hd] at hd'
      cases hd'
      simp only [Declarator.substitute, hinit i d hd (by simp)]
      rw [setSize_eq hx]
      rfl
    · simp [Declarator.substitute, harray j d' hd' (by simpa using hj), hinit j d' hd' (by simp)]
  · cases heq
    simp only [setChild, substitute, mk.injEq, true_and]
    refine modify_eq_map (fun d' hd' => ?_) fun j d' hd' hj => ?_
    · rw [hd] at hd'
      cases hd'
      simp [Declarator.substitute, harray i d hd (by simp), hx]
    · simp [Declarator.substitute, harray j d' hd' (by simp), hinit j d' hd' (by simpa using hj)]

theorem setBody_substitute {body : List Stmt} {i : Nat} {s : Stmt} (hs : body[i]? = some s)
    (ho : ∀ j t, body[j]? = some t → j ≠ i → (Node.statement t).substitute σ = .statement t) :
    body.set i (s.substitute σ) = Stmt.substituteBody σ body := by
  rw [Stmt.substituteBody_eq]
  refine set_eq_map hs fun j t ht hj => ?_
  simpa [Node.substitute] using ho j t ht hj

theorem Stmt.setChild_substitute {s : Stmt} {slot : Slot} {c : Node}
    (hc : (slot, c) ∈ s.children) (ho : σ.SparesOthers s.children slot) :
    s.setChild slot (c.substitute σ) = s.substitute σ := by
  cases s with
  | block id body =>
    simp only [children, mem_statementsIn] at hc
    obtain ⟨i, t, ht, rfl, rfl⟩ := hc
    have hbody := setBody_substitute ht fun j u hu hj =>
      ho (.body j, .statement u) (mem_statementsIn.2 ⟨j, u, hu, rfl, rfl⟩) (by simpa using hj)
    simp [setChild, substitute, Node.substitute, hbody]
  | declare id vars =>
    obtain ⟨i, d, -, ⟨-, e, -, rfl⟩ | ⟨-, e, -, rfl⟩⟩ := Variables.mem_children.1 hc
    · simp [setChild, substitute, Node.substitute, Variables.setChild_substitute hc ho]
    · simp [setChild, substitute, Node.substitute, Variables.setChild_substitute hc ho]
  | forLoop id init cond step body =>
    cases cond <;> cases step <;>
      simp [Substitution.SparesOthers, children, exprIn, Node.substitute] at hc ho <;>
      grind [setChild, substitute, Node.substitute]
  | ret id value =>
    cases value with
    | none => simp [children, exprIn] at hc
    | some e =>
      simp [children, exprIn] at hc
      simp [hc.1, hc.2, setChild, substitute, Node.substitute]
  | jump id k => simp [children] at hc
  | empty id => simp [children] at hc
  | _ =>
    simp [Substitution.SparesOthers, children, Node.substitute] at hc ho
    grind [setChild, substitute, Node.substitute]

theorem setSuffix_substitute {α : Type} (array : α → Option ArraySuffix)
    (put : α → Option ArraySuffix → α) (hput : ∀ x, put x (array x) = x) {xs : List α} {i : Nat}
    {x : α} {e : Expr} (hx : xs[i]? = some x) (he : (array x).bind ArraySuffix.size = some e)
    (ho : ∀ j y, xs[j]? = some y → j ≠ i →
      ∀ c, (array y).bind ArraySuffix.size = some c → c.substitute σ = c) :
    xs.modify i (fun y => put y ((array y).map (ArraySuffix.setSize · (e.substitute σ)))) =
      xs.map fun y => put y ((array y).map (ArraySuffix.substitute σ)) := by
  refine modify_eq_map (fun y hy => ?_) fun j y hy hj => ?_
  · rw [hx] at hy
    cases hy
    rw [setSize_eq he]
    rfl
  · have h := mapSuffix_eq (ho j y hy hj)
    exact (congrArg (put y) h).trans (hput y)

theorem Declaration.setChild_substitute {d : Declaration} {slot : Slot} {c : Node}
    (hc : (slot, c) ∈ d.children) (ho : σ.SparesOthers d.children slot) :
    d.setChild slot (c.substitute σ) = d.substitute σ := by
  cases d with
  | directive id t => simp [children] at hc
  | precision id p t => simp [children] at hc
  | globals id vars =>
    obtain ⟨i, d, -, ⟨-, e, -, rfl⟩ | ⟨-, e, -, rfl⟩⟩ := Variables.mem_children.1 hc
    · simp [setChild, substitute, Node.substitute, Variables.setChild_substitute hc ho]
    · simp [setChild, substitute, Node.substitute, Variables.setChild_substitute hc ho]
  | interfaceBlock id b =>
    simp only [children, mem_suffixes] at hc
    obtain ⟨i, m, hm, rfl, e, he, rfl⟩ := hc
    have hmembers := setSuffix_substitute BlockMember.array
      (fun m a => { m with array := a }) (fun _ => rfl) hm he fun j y hy hj c hcy => by
        have h := ho (.memberArraySize j, .expression c)
          (mem_suffixes.2 ⟨j, y, hy, rfl, c, hcy, rfl⟩) (by simpa using hj)
        simpa [Node.substitute] using h
    simp only [setChild, substitute, Node.substitute, hmembers]
    rfl
  | qualifiers id list => simp [children] at hc
  | function id f =>
    have hsize : ∀ (j : Nat) (p : Param), f.params[j]? = some p → Slot.paramArraySize j ≠ slot →
        ∀ c, p.array.bind ArraySuffix.size = some c → c.substitute σ = c := by
      intro j p hp hj c hc
      have h := ho (.paramArraySize j, .expression c)
        (List.mem_append_left _ (mem_suffixes.2 ⟨j, p, hp, rfl, c, hc, rfl⟩)) hj
      simpa [Node.substitute] using h
    have hstmt : ∀ (j : Nat) (t : Stmt), (f.body.getD [])[j]? = some t → Slot.body j ≠ slot →
        (Node.statement t).substitute σ = .statement t := fun j t ht hj =>
      ho (.body j, .statement t) (List.mem_append_right _ (mem_statementsIn.2 ⟨j, t, ht, rfl, rfl⟩)) hj
    simp only [children, List.mem_append, mem_suffixes, mem_statementsIn] at hc
    rcases hc with ⟨i, p, hp, rfl, e, he, rfl⟩ | ⟨i, t, ht, rfl, rfl⟩
    · have hparams := setSuffix_substitute Param.array
        (fun p a => { p with array := a }) (fun _ => rfl) hp he fun j y hy hj c hcy =>
          hsize j y hy (by simpa using hj) c hcy
      have hbody : f.body.map (Stmt.substituteBody σ) = f.body := by
        cases hf : f.body with
        | none => rfl
        | some body =>
          rw [hf] at hstmt
          have h : body.map (Stmt.substitute σ) = body := map_eq_self fun t ht => by
            obtain ⟨j, hj⟩ := List.mem_iff_getElem?.1 ht
            simpa [Node.substitute] using hstmt j t hj (by simp)
          simp [Stmt.substituteBody_eq, h]
      simp only [setChild, substitute, Function.substitute, Node.substitute, hparams, hbody]
      rfl
    · cases hf : f.body with
      | none => simp [hf] at ht
      | some body =>
        rw [hf] at ht hstmt
        have hbody : body.set i (t.substitute σ) = Stmt.substituteBody σ body :=
          setBody_substitute ht fun j u hu hj => hstmt j u hu (by simpa using hj)
        have hparams : f.params.map (Param.substitute σ) = f.params := map_eq_self fun p hp => by
          obtain ⟨j, hj⟩ := List.mem_iff_getElem?.1 hp
          have h := mapSuffix_eq (hsize j p hj (by simp))
          exact congrArg (fun a => { p with array := a }) h
        simp [setChild, substitute, Function.substitute, Node.substitute, hf, hbody, hparams]

theorem Node.setChild_substitute {n : Node} {slot : Slot} {c : Node}
    (hc : (slot, c) ∈ n.children) (ho : σ.SparesOthers n.children slot) (hroot : σ n.id = none) :
    n.setChild slot (c.substitute σ) = n.substitute σ := by
  cases n with
  | declaration d => exact congrArg declaration (Declaration.setChild_substitute hc ho)
  | statement s => exact congrArg statement (Stmt.setChild_substitute hc ho)
  | expression e =>
    have hexpr : ∃ x, c = .expression x := by
      cases e <;> simp [children, Expr.children] at hc <;> grind
    obtain ⟨x, rfl⟩ := hexpr
    exact congrArg expression (Expr.setChild_substitute hc ho hroot)

theorem Substitution.single_spares {id : NodeId} {new : Expr} {nodes : List Node}
    (h : id ∉ nodes.map Node.id) : (single id new).Spares nodes := by
  intro n hn
  have hne : n.id ≠ id := fun heq => h (heq ▸ List.mem_map_of_mem hn)
  simp [single, hne]

theorem Expr.substitute_root {e new : Expr} (h : σ e.id = some new) : e.substitute σ = new := by
  cases e <;> simp_all [Expr.id, substitute]

theorem Node.mem_nodes_self (n : Node) : n ∈ n.nodes := by
  rw [nodes_eq]
  exact List.mem_cons_self

theorem Node.nodes_subset {n c : Node} {slot : Slot} (h : (slot, c) ∈ n.children) :
    c.nodes ⊆ n.nodes := by
  intro m hm
  rw [n.nodes_eq]
  exact List.mem_cons_of_mem _ (List.mem_flatMap.2 ⟨(slot, c), h, hm⟩)

theorem Node.mem_nodes_of_at? {n m : Node} {path : Path} (h : n.at? path = some m) :
    m ∈ n.nodes := by
  induction path generalizing n with
  | nil =>
    obtain rfl := Option.some.inj h
    exact Node.mem_nodes_self _
  | cons slot path ih =>
    obtain ⟨c, hc, hm⟩ := Option.bind_eq_some_iff.1 h
    exact Node.nodes_subset (Node.child?_eq_some.1 hc) (ih hm)

theorem eq_of_mem_flatMap {α β : Type} {f : α → List β} {xs : List α} (h : (xs.flatMap f).Nodup)
    {a b : α} {x : β} (ha : a ∈ xs) (hb : b ∈ xs) (hxa : x ∈ f a) (hxb : x ∈ f b) : a = b := by
  induction xs with
  | nil => simp at ha
  | cons y ys ih =>
    rw [List.flatMap_cons, List.nodup_append] at h
    obtain ⟨-, hys, hdisjoint⟩ := h
    rcases List.mem_cons.1 ha with hay | hay <;> rcases List.mem_cons.1 hb with hby | hby
    · rw [hay, hby]
    · exact absurd rfl (hdisjoint x (hay ▸ hxa) x (List.mem_flatMap.2 ⟨b, hby, hxb⟩))
    · exact absurd rfl (hdisjoint x (hby ▸ hxb) x (List.mem_flatMap.2 ⟨a, hay, hxa⟩))
    · exact ih hys hay hby

theorem Node.setAt_eq_substitute {n : Node} (hn : n.ids.Nodup) {path : Path} {e : Expr}
    (h : n.at? path = some (.expression e)) (new : Expr) :
    n.setAt path (.expression new) = n.substitute (.single e.id new) := by
  induction path generalizing n with
  | nil =>
    cases h
    have hroot : Substitution.single e.id new e.id = some new := by simp [Substitution.single]
    simp [setAt, substitute, Expr.substitute_root hroot]
  | cons slot path ih =>
    obtain ⟨c, hc, hm⟩ := Option.bind_eq_some_iff.1 h
    have hmem := Node.child?_eq_some.1 hc
    have he : e.id ∈ c.ids := List.mem_map_of_mem (f := Node.id) (Node.mem_nodes_of_at? hm)
    rw [ids, nodes_eq, childNodes, List.map_cons, List.map_flatMap, List.nodup_cons] at hn
    obtain ⟨hroot, hchildren⟩ := hn
    have hne : n.id ≠ e.id := fun heq => hroot (heq ▸ List.mem_flatMap.2 ⟨(slot, c), hmem, he⟩)
    -- the identity is below one child only, so the other children are spared
    have ho : (Substitution.single e.id new).SparesOthers n.children slot := by
      intro other hother hslot
      refine Node.substitute_spared (Substitution.single_spares fun hin => ?_)
      have heq := eq_of_mem_flatMap hchildren hother hmem hin he
      exact hslot (congrArg Prod.fst heq)
    rw [setAt, hc]
    simp only
    rw [ih ((List.nodup_flatMap.1 hchildren).1 _ hmem) hm]
    exact Node.setChild_substitute hmem ho (by simp [Substitution.single, hne])

theorem Shader.setAt_eq_substitute {s : Shader} (hs : s.ids.Nodup) {path : Path} {e : Expr}
    (h : s.at? path = some (.expression e)) (new : Expr) :
    s.setAt path (.expression new) = s.substitute (.single e.id new) := by
  cases path with
  | nil => simp [at?] at h
  | cons slot path =>
    cases slot with
    | topLevel i =>
      obtain ⟨d, hd, hat⟩ := Option.bind_eq_some_iff.1 h
      have he : e.id ∈ (Node.declaration d).ids :=
        List.mem_map_of_mem (f := Node.id) (Node.mem_nodes_of_at? hat)
      rw [ids, nodes_children, childNodes, List.map_flatMap] at hs
      have hnodup : (Node.declaration d).ids.Nodup :=
        (List.nodup_flatMap.1 hs).1 _ (mem_children.2 ⟨i, d, hd, rfl, rfl⟩)
      have hset := Node.setAt_eq_substitute hnodup hat new
      simp only [setAt, substitute, mk.injEq]
      refine modify_eq_map (fun d' hd' => ?_) fun j d' hd' hj => ?_
      · rw [hd] at hd'
        cases hd'
        simp [hset, Node.substitute]
      · refine Declaration.substitute_spared (Substitution.single_spares fun hin => hj ?_)
        have heq := eq_of_mem_flatMap hs (mem_children.2 ⟨j, d', hd', rfl, rfl⟩)
          (mem_children.2 ⟨i, d, hd, rfl, rfl⟩) hin he
        simpa using congrArg Prod.fst heq
    | _ => simp [at?] at h

theorem lookup_of_mem {α β : Type} [BEq α] [LawfulBEq α] {entries : List (α × β)}
    (h : (entries.map Prod.fst).Nodup) {key : α} {b : β} (hm : (key, b) ∈ entries) :
    entries.lookup key = some b := by
  induction entries with
  | nil => simp at hm
  | cons entry rest ih =>
    obtain ⟨k, c⟩ := entry
    rw [List.map_cons, List.nodup_cons] at h
    rw [List.lookup_cons]
    rcases List.mem_cons.1 hm with heq | hrest
    · obtain ⟨rfl, rfl⟩ := Prod.mk.inj heq
      simp
    · have hmem : key ∈ rest.map Prod.fst := List.mem_map.2 ⟨(key, b), hrest, rfl⟩
      have hne : (key == k) = false := beq_eq_false_iff_ne.2 fun heq => h.1 (heq ▸ hmem)
      simp [hne, ih h.2 hrest]

theorem ParentIndex.keys_ofShader (s : Shader) :
    (ofShader s).links.map Prod.fst = ((s.walk .backward).map fun v => v.node.id).reverse := by
  simp [links_ofShader, Function.comp_def]

theorem Shader.walk_ids (s : Shader) (dir : Direction) :
    ((s.walk dir).map fun v => v.node.id).Perm s.ids := by
  have h := (s.walk_nodes dir).map Node.id
  rwa [List.map_map] at h

theorem ParentIndex.link?_of_mem {s : Shader} (hs : s.ids.Nodup) {v : Visit}
    (hv : v ∈ s.walk .backward) : (ofShader s).link? v.node.id = some v.link := by
  refine lookup_of_mem ?_ ?_
  · rw [keys_ofShader, List.nodup_reverse]
    exact (s.walk_ids .backward).nodup_iff.2 hs
  · rw [links_ofShader, List.mem_reverse]
    exact List.mem_map_of_mem (f := fun v : Visit => (v.node.id, v.link)) hv

theorem ParentIndex.link?_eq_none {s : Shader} {id : NodeId} (h : id ∉ s.ids) :
    (ofShader s).link? id = none := by
  have hkey : id ∉ (ofShader s).links.map Prod.fst := by
    rw [keys_ofShader, List.mem_reverse, (s.walk_ids .backward).mem_iff]
    exact h
  refine List.lookup_eq_none_iff.2 fun entry hentry => bne_iff_ne.2 ?_
  rintro rfl
  exact hkey (List.mem_map_of_mem hentry)

theorem Shader.visit?_of_mem {s : Shader} (hs : s.ids.Nodup) {v : Visit}
    (hv : v ∈ s.walk .backward) : s.visit? v.node.id = some v := by
  rw [visit?_eq]
  cases hfind : (s.walk .backward).find? fun w => w.node.id = v.node.id with
  | none =>
    have h := List.find?_eq_none.1 hfind v hv
    simp at h
  | some w =>
    have hid := List.find?_some hfind
    simp only [decide_eq_true_eq] at hid
    rw [Shader.visit_unique hs (List.mem_of_find?_eq_some hfind) hv hid]

theorem Shader.findExpr?_eq_some {s : Shader} (hs : s.ids.Nodup) {id : NodeId} {e : Expr} :
    s.findExpr? id = some e ↔ .expression e ∈ s.nodes ∧ e.id = id := by
  constructor
  · intro h
    obtain ⟨n, hn, he⟩ := Option.bind_eq_some_iff.1 h
    obtain ⟨v, hv, rfl⟩ := Option.map_eq_some_iff.1 hn
    rw [visit?_eq] at hv
    have hid := List.find?_some hv
    have hmem := (mem_nodes_iff .backward).2 ⟨v, List.mem_of_find?_eq_some hv, rfl⟩
    cases hv' : v.node with
    | expression e' =>
      rw [hv'] at he hid hmem
      cases he
      exact ⟨hmem, of_decide_eq_true hid⟩
    | _ => simp [hv', Node.expression?] at he
  · rintro ⟨hmem, rfl⟩
    obtain ⟨v, hv, hnode⟩ := (mem_nodes_iff .backward).1 hmem
    have hvisit := visit?_of_mem hs hv
    simp only [hnode, Node.id] at hvisit
    simp [findExpr?, find?, hvisit, hnode, Node.expression?]

end ShaderLift
