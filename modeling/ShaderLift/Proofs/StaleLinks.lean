import Mathlib
import ShaderLift.Proofs.ParentLinks

/-!
Replacement through a parent index that need not belong to the shader: it may come from another
shader, or from this one before it was changed, and identities may repeat or be missing. What the
index says is only believed as far as the shader bears it out, so a replacement that goes through
takes the place of one expression with the identity asked for, and nothing else changes.
-/

namespace ShaderLift

namespace Shader

variable {s : Shader}

/-- The second shader is the first with one expression in the place of another: the path that leads
to the old one in the first leads to the new one in the second, paths that part from it lead to the
same nodes in both, and the old expression put back gives the first shader again. -/
structure ReplacedAt (s : Shader) (path : Path) (old new : Expr) (t : Shader) : Prop where
  before : s.at? path = some (.expression old)
  after : t.at? path = some (.expression new)
  apart : ∀ other : Path, ¬path <+: other → ¬other <+: path → t.at? other = s.at? other
  back : t.setAt path (.expression old) = s

theorem replacedAt_setAt {path : Path} {old : Expr} (h : s.at? path = some (.expression old))
    (new : Expr) : s.ReplacedAt path old new (s.setAt path (.expression new)) := by
  cases path with
  | nil => cases h
  | cons slot rest =>
    cases slot with
    | topLevel i =>
      obtain ⟨d, hd, hat⟩ := Option.bind_eq_some_iff.1 h
      have hkind : (Node.expression new).kind = (Node.expression old).kind := rfl
      obtain ⟨d', hset, hshader⟩ := setAt_topLevel hd hat hkind
      obtain ⟨hi, hget⟩ := List.getElem?_eq_some_iff.1 hd
      have hafter := Node.at?_setAt hat hkind
      have hback := Node.setAt_back hat hkind
      rw [hset] at hafter hback
      rw [hshader]
      refine ⟨h, ?_, fun other hbelow habove => ?_, ?_⟩
      · simpa [at?, hi] using hafter
      · -- the other path may part from this one at the top or inside the declaration
        cases other with
        | nil => exact absurd List.nil_prefix habove
        | cons next other =>
          cases next with
          | topLevel j =>
            by_cases hj : i = j
            · subst hj
              rw [List.cons_prefix_cons] at hbelow habove
              have happart := Node.at?_setAt_apart hat hkind (fun h => hbelow ⟨rfl, h⟩)
                fun h => habove ⟨rfl, h⟩
              rw [hset] at happart
              simp [at?, hi, hget, happart]
            · simp [at?, hj]
          | _ => rfl
      · have hd' : (s.declarations.set i d')[i]? = some d' := by simp [hi]
        obtain ⟨d'', hset', hshader'⟩ := setAt_topLevel (s := ⟨_⟩) hd' hafter hkind.symm
        rw [hback] at hset'
        obtain rfl := Node.declaration.inj hset'
        rw [hshader', List.set_set, ← hget, List.set_getElem_self]
    | _ => cases h

end Shader

namespace ParentIndex

variable {index : ParentIndex} {s t : Shader} {id : NodeId} {e new : Expr}

/-- A replacement goes through exactly where the shader has the parent that the index names, and this
has an expression of the wanted identity in the slot that the index names. -/
theorem replace_eq_ok :
    index.replace s id new = (.ok e, t) ↔ ∃ parent slot v,
      index.link? id = some ⟨.node parent, slot⟩ ∧ s.visit? parent = some v ∧
      (slot, .expression e) ∈ v.node.children ∧ e.id = id ∧
      t = s.setAt (v.path ++ [slot]) (.expression new) := by
  rw [replace_eq]
  constructor
  · intro h
    split at h
    · cases (Prod.mk.inj h).1
    · cases (Prod.mk.inj h).1
    · next parent slot hlink =>
      split at h
      · cases (Prod.mk.inj h).1
      · next v hv =>
        split at h
        · cases (Prod.mk.inj h).1
        · next e' hchild =>
          split at h
          · next hid =>
            obtain ⟨he, rfl⟩ := Prod.mk.inj h
            obtain rfl := Except.ok.inj he
            exact ⟨parent, slot, v, hlink, hv, Node.child?_eq_some.1 hchild, hid, rfl⟩
          · cases (Prod.mk.inj h).1
        · cases (Prod.mk.inj h).1
  · rintro ⟨parent, slot, v, hlink, hv, hchild, hid, rfl⟩
    simp only [hlink, hv, Node.child?_eq_some.2 hchild, hid, if_true]

theorem replace_refused {fault : Fault} (h : index.replace s id new = (.error fault, t)) :
    (fault = .nodeNotFound id ∨ fault = .notAnExpression id) ∧ t = s := by
  rw [replace] at h
  grind

theorem replacedAt_of_replace (h : index.replace s id new = (.ok e, t)) :
    e.id = id ∧ ∃ path, s.ReplacedAt path e new t := by
  obtain ⟨parent, slot, v, -, hv, hchild, hid, rfl⟩ := replace_eq_ok.1 h
  -- where the index came from has no part in this: the path is the one found in the shader
  obtain ⟨-, hat⟩ := Shader.walk_path (Shader.visit?_eq_some hv).1
  exact ⟨hid, _, Shader.replacedAt_setAt (Shader.at?_child hat hchild) new⟩

/-- Through any index and on any shader, a replacement either takes the place of one expression with
the identity asked for, and of nothing else, or is refused and leaves the shader alone. It goes
through if and only if the expression is where the index says. -/
theorem replace_stale (index : ParentIndex) (s : Shader) (id : NodeId) (new : Expr) :
    (∀ e t, index.replace s id new = (.ok e, t) →
      e.id = id ∧ ∃ path, s.ReplacedAt path e new t) ∧
    (∀ fault t, index.replace s id new = (.error fault, t) →
      (fault = .nodeNotFound id ∨ fault = .notAnExpression id) ∧ t = s) ∧
    ((∃ e t, index.replace s id new = (.ok e, t)) ↔ ∃ parent slot v e,
      index.link? id = some ⟨.node parent, slot⟩ ∧ s.visit? parent = some v ∧
      (slot, .expression e) ∈ v.node.children ∧ e.id = id) := by
  refine ⟨fun e t => replacedAt_of_replace, fun fault t => replace_refused, ?_, ?_⟩
  · rintro ⟨e, t, h⟩
    obtain ⟨parent, slot, v, hlink, hv, hchild, hid, -⟩ := replace_eq_ok.1 h
    exact ⟨parent, slot, v, e, hlink, hv, hchild, hid⟩
  · rintro ⟨parent, slot, v, e, hlink, hv, hchild, hid⟩
    exact ⟨e, _, replace_eq_ok.2 ⟨parent, slot, v, hlink, hv, hchild, hid, rfl⟩⟩

/-- One call, which the index is built from. -/
def oneCall : Shader :=
  ⟨[.function 0 ⟨⟨[], .void⟩, "main", [], some [.expr 1 (.call 2 "g" [.literal 3 (.int 4)])]⟩]⟩

/-- Another call with the same identities after it. -/
def twoCalls : Shader :=
  ⟨[.function 0 ⟨⟨[], .void⟩, "main", [],
    some [.expr 1 (.call 2 "g" [.literal 3 (.int 4)]),
      .expr 1 (.call 2 "h" [.literal 3 (.int 5)])]⟩]⟩

/-- The last of the two takes the replacement. The index does not know of it, and a second
replacement is refused. -/
theorem twoCalls_replaced : ∃ t,
    (ofShader oneCall).replace twoCalls 3 (.name 9 "w") = (.ok (.literal 3 (.int 5)), t) ∧
    (∃ path, twoCalls.ReplacedAt path (.literal 3 (.int 5)) (.name 9 "w") t) ∧
    (ofShader oneCall).replace t 3 (.name 10 "v") = (.error (.nodeNotFound 3), t) := by
  obtain ⟨t, hok, herror⟩ : ∃ t,
      (ofShader oneCall).replace twoCalls 3 (.name 9 "w") = (.ok (.literal 3 (.int 5)), t) ∧
      ((ofShader oneCall).replace t 3 (.name 10 "v")).1 = .error (.nodeNotFound 3) :=
    ⟨_, rfl, rfl⟩
  obtain ⟨hplace, -⟩ := replace_stale (ofShader oneCall) twoCalls 3 (.name 9 "w")
  obtain ⟨-, hkept, -⟩ := replace_stale (ofShader oneCall) t 3 (.name 10 "v")
  exact ⟨t, hok, (hplace _ _ hok).2, Prod.ext herror (hkept _ _ (Prod.ext herror rfl)).2⟩

end ParentIndex
end ShaderLift
