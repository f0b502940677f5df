import Mathlib
import ShaderLift.Proofs.JobRereading
import ShaderLift.Proofs.MetadataText
import ShaderLift.Proofs.SteadyTexts
import ShaderLift.Proofs.WrittenFiles

/-!
A job is loaded again from the files that it writes, as long as the texts of its stages can be read.
Its metadata are the same if no entry beside the uniforms looks like the record of one and the real
numbers are read back. Its stages have the same texts, and the fingerprint does not change, if and
only if the text of every stage is steady.
-/

namespace ShaderLift

theorem Expr.isSign_unnumbered (e : Expr) : e.unnumbered.isSign = e.isSign := by
  cases e <;> rfl

mutual

theorem Expr.text_unnumbered : ∀ e : Expr, e.unnumbered.text = e.text
  | literal _ _ | name _ _ => rfl
  | paren _ e => by rw [unnumbered, text, text, e.text_unnumbered]
  | unary _ _ e => by rw [unnumbered, text, text, e.isSign_unnumbered, e.text_unnumbered]
  | binary _ _ l r | assign _ _ l r => by
    rw [unnumbered, text, text, l.text_unnumbered, r.text_unnumbered]
  | ternary _ c y n => by
    rw [unnumbered, text, text, c.text_unnumbered, y.text_unnumbered, n.text_unnumbered]
  | call _ _ args => by rw [unnumbered, text, text, textOfArgs_unnumbered args]
  | index _ b i => by rw [unnumbered, text, text, b.text_unnumbered, i.text_unnumbered]
  | member _ b _ => by rw [unnumbered, text, text, b.text_unnumbered]

theorem Expr.textOfArgs_unnumbered : ∀ args : List Expr,
    textOfArgs (unnumberedArgs args) = textOfArgs args
  | [] => rfl
  | e :: es => by
    rw [unnumberedArgs, textOfArgs, textOfArgs, e.text_unnumbered, textOfMoreArgs_unnumbered es]

theorem Expr.textOfMoreArgs_unnumbered : ∀ args : List Expr,
    textOfMoreArgs (unnumberedArgs args) = textOfMoreArgs args
  | [] => rfl
  | e :: es => by
    rw [unnumberedArgs, textOfMoreArgs, textOfMoreArgs, e.text_unnumbered,
      textOfMoreArgs_unnumbered es]

end

@[simp] theorem ArraySuffix.text_unnumbered (a : ArraySuffix) : a.unnumbered.text = a.text := by
  obtain ⟨size⟩ := a
  cases size with
  | none => rfl
  | some e => simp [unnumbered, text, e.text_unnumbered]

theorem textOrEmpty_map {α : Type} {f : α → α} {text : α → List Char}
    (h : ∀ a, text (f a) = text a) (a : Option α) : textOrEmpty text (a.map f) = textOrEmpty text a := by
  cases a with
  | none => rfl
  | some a => exact h a

theorem Variables.text_unnumbered (v : Variables) : v.unnumbered.text = v.text := by
  have hvar (d : Declarator) : d.unnumbered.text = d.text := by
    rw [Declarator.text, Declarator.unnumbered, textOrEmpty_map ArraySuffix.text_unnumbered,
      textOrEmpty_map fun e => by rw [e.text_unnumbered]]
    rfl
  have hvars : v.vars.map (Declarator.text ∘ Declarator.unnumbered) = v.vars.map Declarator.text :=
    List.map_congr_left fun d _ => hvar d
  rw [text, unnumbered, List.map_map, hvars]
  rfl

mutual

theorem Stmt.text_unnumbered (place : Place) (depth : Nat) :
    ∀ s : Stmt, s.unnumbered.text place depth = s.text place depth
  | block id body => by
    rw [unnumbered, text, text, textOfBody_unnumbered _ body]
    rfl
  | declare id vars => by
    rw [unnumbered, text, text, vars.text_unnumbered]
    rfl
  | expr id e => by
    rw [unnumbered, text, text, e.text_unnumbered]
    rfl
  | ifThen id c y => by
    rw [unnumbered, text, text, c.text_unnumbered, y.text_unnumbered]
    rfl
  | ifElse id c y n => by
    rw [unnumbered, text, text, c.text_unnumbered, y.text_unnumbered, n.text_unnumbered]
    rfl
  | forLoop id init c s body => by
    rw [unnumbered, text, text, init.text_unnumbered, body.text_unnumbered,
      textOrEmpty_map Expr.text_unnumbered, textOrEmpty_map Expr.text_unnumbered]
    rfl
  | whileLoop id c body => by
    rw [unnumbered, text, text, c.text_unnumbered, body.text_unnumbered]
    rfl
  | doWhile id body c => by
    rw [unnumbered, text, text, c.text_unnumbered, body.text_unnumbered]
    rfl
  | ret id e => by
    rw [unnumbered, text, text, textOrEmpty_map fun e => by rw [e.text_unnumbered]]
    rfl
  | jump _ _ | empty _ => rfl

theorem Stmt.textOfBody_unnumbered (depth : Nat) : ∀ body : List Stmt,
    textOfBody depth (unnumberedBody body) = textOfBody depth body
  | [] => rfl
  | s :: rest => by
    rw [unnumberedBody, textOfBody, textOfBody, s.text_unnumbered, textOfBody_unnumbered _ rest]

end

theorem Function.text_unnumbered (f : Function) : f.unnumbered.text = f.text := by
  have hparam (p : Param) : p.unnumbered.text = p.text := by
    rw [Param.text, Param.text, Param.unnumbered, textOrEmpty_map ArraySuffix.text_unnumbered]
  have hparams : f.params.map (Param.text ∘ Param.unnumbered) = f.params.map Param.text :=
    List.map_congr_left fun p _ => hparam p
  rw [text, text, unnumbered, List.map_map, hparams]
  cases f.body with
  | none => rfl
  | some body => simp only [Option.map_some, Stmt.textOfBody_unnumbered]

theorem Declaration.text_unnumbered (d : Declaration) : d.unnumbered.text = d.text := by
  cases d with
  | directive _ _ | precision _ _ _ | qualifiers _ _ => rfl
  | globals _ vars => exact congrArg (· ++ ['\n']) vars.text_unnumbered
  | function id f =>
    have htext (i : NodeId) (g : Function) : (function i g).text = g.text := rfl
    rw [unnumbered, htext, htext, f.text_unnumbered]
  | interfaceBlock id b =>
    have htext (i : NodeId) (c : InterfaceBlock) : (interfaceBlock i c).text = c.text := rfl
    have hmember (m : BlockMember) : m.unnumbered.text = m.text := by
      rw [BlockMember.text, BlockMember.unnumbered, textOrEmpty_map ArraySuffix.text_unnumbered]
      rfl
    rw [unnumbered, htext, htext]
    simp only [InterfaceBlock.text, List.flatMap_map, hmember]

theorem Shader.text_unnumbered (s : Shader) : s.unnumbered.text = s.text := by
  rw [text, unnumbered, List.flatMap_map]
  simp only [Declaration.text_unnumbered]
  rfl

namespace Job

def sources (job : Job) : List (Stage × List Char) := job.stages.map fun x => (x.1, x.2.text)

def shapes (job : Job) : List (Stage × Shader) := job.stages.map fun x => (x.1, x.2.unnumbered)

theorem sources_eq_shapes (job : Job) : job.sources = job.shapes.map fun x => (x.1, x.2.text) := by
  simp only [sources, shapes, List.map_map, Function.comp_def, Shader.text_unnumbered]

/-- Jobs that differ in identities only. -/
structure Alike (a b : Job) : Prop where
  metadata : a.metadata = b.metadata
  shapes : a.shapes = b.shapes

theorem Alike.symm {a b : Job} (h : a.Alike b) : b.Alike a := ⟨h.metadata.symm, h.shapes.symm⟩

theorem Alike.sources {a b : Job} (h : a.Alike b) : a.sources = b.sources := by
  rw [sources_eq_shapes, sources_eq_shapes, h.shapes]

theorem digestInput_eq (job : Job) :
    job.digestInput = job.metadata.toJson.compact ++
      job.sources.flatMap fun x => '\x00' :: x.1.extension.toList ++ '\x00' :: x.2 := by
  rw [digestInput, sources, List.flatMap_map]

theorem putStage_last {stage : Stage} {s : Shader} {stages : List (Stage × Shader)}
    (h : ∀ x ∈ stages, x.1.rank < stage.rank) : putStage stage s stages = stages ++ [(stage, s)] := by
  induction stages with
  | nil => rfl
  | cons first rest ih =>
    obtain ⟨st, t⟩ := first
    have hlt : st.rank < stage.rank := h _ List.mem_cons_self
    have hne : stage ≠ st := by
      rintro rfl
      exact lt_irrefl _ hlt
    rw [putStage, if_neg hlt.not_gt, if_neg hne, ih fun x hx => h x (List.mem_cons_of_mem _ hx)]
    rfl

theorem stages_eq {job : Job} (h : Ordered job.stages) :
    job.stages = Stage.all.filterMap fun stage => (job.shader? stage).map fun s => (stage, s) := by
  have hall : Ordered (Stage.all.filterMap fun stage => (job.shader? stage).map fun s => (stage, s)) := by
    have hrank : Stage.all.Pairwise fun a b => a.rank < b.rank := by decide
    refine hrank.filterMap _ fun a b hab x hx y hy => ?_
    obtain ⟨_, _, rfl⟩ := Option.map_eq_some_iff.1 hx
    obtain ⟨_, _, rfl⟩ := Option.map_eq_some_iff.1 hy
    exact hab
  have hnodup {stages : List (Stage × Shader)} (h : Ordered stages) : stages.Nodup := by
    refine h.imp fun {x y} hlt heq => ?_
    rw [heq] at hlt
    exact Nat.lt_irrefl _ hlt
  refine List.Perm.eq_of_pairwise (fun x y _ _ hxy hyx => absurd hxy hyx.not_gt) h hall ?_
  refine (List.perm_ext_iff_of_nodup (hnodup h) (hnodup hall)).2 fun x => ?_
  simp only [List.mem_filterMap, Option.map_eq_some_iff]
  constructor
  · intro hx
    exact ⟨x.1, mem_all x.1, x.2, (shader?_eq_some h).2 hx, rfl⟩
  · rintro ⟨stage, -, s, hs, rfl⟩
    exact (shader?_eq_some h).1 hs

/-- The shapes that the texts of the stages are read with. -/
def rereadShapes (job : Job) : List (Stage × Shader) :=
  job.stages.map fun x => (x.1, x.2.reread.unnumbered)

theorem rereadShapes_eq {job : Job} (h : Ordered job.stages) :
    job.rereadShapes = Stage.all.filterMap fun stage =>
      (job.shader? stage).map fun s => (stage, s.reread.unnumbered) := by
  have hmap :=
    congrArg (List.map fun x : Stage × Shader => (x.1, x.2.reread.unnumbered)) (stages_eq h)
  simpa [rereadShapes, List.map_filterMap, Function.comp_def] using hmap

theorem rereadShapes_of_printable {job : Job} (h : ∀ x ∈ job.stages, AllPrintable x.2.nodes) :
    job.rereadShapes = job.shapes :=
  List.map_congr_left fun x hx => by rw [Shader.reread_of_printable (h x hx)]

theorem sources_reread_iff {job after : Job} (h : after.shapes = job.rereadShapes) :
    after.sources = job.sources ↔ ∀ x ∈ job.stages, ∀ n ∈ x.2.written.nodes, n.Steady := by
  rw [sources_eq_shapes, h, rereadShapes, sources, List.map_map, List.map_inj_left]
  simp only [Function.comp_apply, Shader.text_unnumbered, Prod.mk.injEq, true_and,
    Shader.text_reread_iff]

section

variable {σ : Type} {files : FileSystem (StateM σ)} {path text : String} {s : σ}

theorem readFile_ok (h : files.read path s = (.ok text, s)) :
    (readFile files path).run s = (.ok text, s) := by
  rw [readFile, run_bind_of_ok (run_lift h)]
  rfl

theorem loadStages_absent {stage : Stage} (h : files.exists? (stageFile path stage) s = (false, s))
    (job : Job) (rest : List Stage) :
    (loadStages files path job (stage :: rest)).run s =
      (loadStages files path job rest).run s := by
  rw [loadStages]
  exact run_bind_of_ok (run_lift h)

theorem loadStages_present {stage : Stage}
    (hexists : files.exists? (stageFile path stage) s = (true, s))
    (hread : files.read (stageFile path stage) s = (.ok text, s)) {job next : Job}
    (hadd : job.addShader stage text = (.ok (), next)) (rest : List Stage) :
    (loadStages files path job (stage :: rest)).run s =
      (loadStages files path next rest).run s := by
  rw [loadStages]
  refine (run_bind_of_ok (run_lift hexists)).trans ?_
  refine (run_bind_of_ok (readFile_ok hread)).trans ?_
  rw [hadd]

/-- Loading goes on with the stages of the job that come after those there are. -/
theorem loadStages_stored {job : Job} (hsound : job.Sound)
    (hlegible : ∀ x ∈ job.stages, x.2.Legible) (hstored : job.Stored files path s)
    {stages : List Stage} (hstages : stages.Pairwise fun a b => a.rank < b.rank) {current : Job}
    (hloaded : current.Sound)
    (hcurrent : ∀ x ∈ current.stages, ∀ stage ∈ stages, x.1.rank < stage.rank) :
    ∃ after, (loadStages files path current stages).run s = (.ok after, s) ∧
      after.Sound ∧ after.metadata = current.metadata ∧
      after.shapes = current.shapes ++ stages.filterMap fun stage =>
        (job.shader? stage).map fun s => (stage, s.reread.unnumbered) := by
  -- on the stages still to load, all of which come after those that were loaded
  induction stages generalizing current with
  | nil => exact ⟨current, rfl, hloaded, rfl, by simp⟩
  | cons stage rest ih =>
    obtain ⟨hfirst, hrest⟩ := List.pairwise_cons.1 hstages
    have hlater : ∀ x ∈ current.stages, ∀ st ∈ rest, x.1.rank < st.rank :=
      fun x hx st hst => hcurrent x hx st (List.mem_cons_of_mem _ hst)
    cases hs : job.shader? stage with
    | none =>
      obtain ⟨after, hload, hafter, hmetadata, hshapes⟩ := ih hrest hloaded hlater
      rw [loadStages_absent (hstored.absent stage hs)]
      exact ⟨after, hload, hafter, hmetadata, by simpa [hs] using hshapes⟩
    | some shader =>
      have hmem := (shader?_eq_some hsound.ordered).1 hs
      have hwf := hsound.wellFormed _ hmem
      have hread := Shader.read_text hwf (hlegible _ hmem) current.ids
      have hshape : (shader.reread.unnumbered.number current.ids).1.unnumbered =
          shader.reread.unnumbered := by
        rw [Shader.unnumbered_number, Shader.unnumbered_reread hwf (hlegible _ hmem)]
      generalize shader.reread.unnumbered.number current.ids = reread at hread hshape
      let next : Job := ⟨current.stages ++ [(stage, reread.1)], current.metadata, reread.2⟩
      have hadd : current.addShader stage (String.ofList shader.text) = (.ok (), next) := by
        refine addShader_eq_ok.2 ⟨reread.1, reread.2, hread, ?_⟩
        rw [putStage_last fun x hx => hcurrent x hx stage List.mem_cons_self]
      have hnext : ∀ x ∈ next.stages, ∀ st ∈ rest, x.1.rank < st.rank := by
        refine List.forall_mem_append.2 ⟨hlater, fun x hx => ?_⟩
        obtain rfl := List.mem_singleton.1 hx
        exact hfirst
      obtain ⟨after, hload, hafter, hmetadata, hshapes⟩ := ih hrest (hloaded.addShader hadd) hnext
      obtain ⟨hexists, htext⟩ := hstored.present stage shader hs
      rw [loadStages_present hexists htext hadd]
      refine ⟨after, hload, hafter, hmetadata, ?_⟩
      rw [hshapes]
      simp [shapes, next, hs, hshape]

/-- A job is loaded from its files as it is read from their texts. -/
theorem load_stored {job : Job} (hsound : job.Sound) (hstages : job.stages ≠ [])
    (hmetadata : Metadata.ofText (job.metadata.pretty ++ "\n") = .ok job.metadata)
    (hlegible : ∀ x ∈ job.stages, x.2.Legible) (hstored : job.Stored files path s) :
    ∃ after, (load files path).run s = (.ok after, s) ∧ after.Sound ∧
      after.metadata = job.metadata ∧ after.shapes = job.rereadShapes := by
  obtain ⟨after, hload, hafter, hmeta, hshapes⟩ := loadStages_stored hsound hlegible hstored
    (by decide : Stage.all.Pairwise fun a b => a.rank < b.rank)
    (Assembled.empty job.metadata).sound
    (nofun : ∀ x ∈ (⟨[], job.metadata, {}⟩ : Job).stages, ∀ stage ∈ Stage.all, _)
  have hsame : after.shapes = job.rereadShapes := by
    rw [hshapes, rereadShapes_eq hsound.ordered]
    rfl
  have hnonempty : after.stages.isEmpty = false := by
    have hlength := congrArg List.length hsame
    simp only [shapes, rereadShapes, List.length_map] at hlength
    rw [List.isEmpty_eq_false_iff, ← List.length_pos_iff, hlength, List.length_pos_iff]
    exact hstages
  refine ⟨after, ?_, hafter, hmeta, hsame⟩
  rw [load, run_bind_of_ok (readFile_ok hstored.metadata), hmetadata]
  refine (run_bind_of_ok hload).trans ?_
  rw [hnonempty]
  rfl

theorem load_alike {job : Job} (hsound : job.Sound) (hstages : job.stages ≠ [])
    (hmetadata : Metadata.ofText (job.metadata.pretty ++ "\n") = .ok job.metadata)
    (hprint : ∀ x ∈ job.stages, AllPrintable x.2.nodes) (hstored : job.Stored files path s) :
    ∃ after, (load files path).run s = (.ok after, s) ∧ after.Sound ∧ after.Alike job := by
  have hlegible : ∀ x ∈ job.stages, x.2.Legible :=
    fun x hx => Shader.legible_of_printable (hsound.wellFormed x hx) (hprint x hx)
  obtain ⟨after, hload, hafter, hmeta, hshapes⟩ :=
    load_stored hsound hstages hmetadata hlegible hstored
  exact ⟨after, hload, hafter, hmeta, hshapes.trans (rereadShapes_of_printable hprint)⟩

end

/-- A job that was read from texts and has been written is loaded again with the same metadata, and
its stages as their texts are read. The texts are the same if and only if they are steady. -/
theorem load_written {job : Job} (hjob : job.Assembled) (hstages : job.stages ≠ []) {text : String}
    (hmetadata : Metadata.ofText text = .ok job.metadata)
    (hplain : ∀ e ∈ job.metadata.table.entries, e.2.Plain)
    (hkept : ∀ x : Double, .real x ∈ job.metadata.toJson.numbers → (Number.real x).Kept)
    (hlegible : ∀ x ∈ job.stages, x.2.Legible) {path : String}
    (hnames : NamesApart path) {before written : FileTree}
    (hwrite : (job.write FileTree.system path).run before = (.ok (), written))
    (habsent : ∀ stage, job.shader? stage = none → before.exists? (stageFile path stage) = false) :
    ∃ after, (load FileTree.system path).run written = (.ok after, written) ∧
      after.metadata = job.metadata ∧ after.shapes = job.rereadShapes ∧
      (after.sources = job.sources ↔ ∀ x ∈ job.stages, ∀ n ∈ x.2.written.nodes, n.Steady) ∧
      (after.sources = job.sources → after.fingerprint = job.fingerprint) := by
  have hagain := Metadata.ofText_again hmetadata hplain hkept
  have hstored := stored_of_write hjob.sound.ordered hnames hwrite habsent
  obtain ⟨after, hload, -, hmeta, hshapes⟩ :=
    load_stored hjob.sound hstages hagain hlegible hstored
  refine ⟨after, hload, hmeta, hshapes, sources_reread_iff hshapes, fun hsources => ?_⟩
  have hdigest : after.digestInput = job.digestInput := by
    rw [digestInput_eq, digestInput_eq, hmeta, hsources]
  rw [fingerprint, hdigest, fingerprint]

theorem sample_stages_printable :
    ∀ x ∈ [(Stage.vertex, sampleVertex), (.fragment, sampleFragment)], AllPrintable x.2.nodes := by
  simp [sampleVertex, sampleFragment, Shader.nodes, Declaration.nodes, Node.Printable,
    Variables.nodes, Declarator.nodes, nodesOfSuffix, nodesOfOption, Stmt.nodesOfBody, Stmt.nodes,
    Expr.nodes]

def storedText : String :=
  "\x7b\"weight\": \x7b\"func\": \"glUniform1f\", \"args\": [0.5, -3], \"binding\": 7\x7d, " ++
    "\"scale\": [2.5e-3, \x7b\"b\": null, \"a\": true\x7d]\x7d"

/-- Read from `int f(int[2]) { return -0xFFFFFFFF; }`, and written as
`int f(int) { return --1; }`. -/
def storedVertex : Shader :=
  ⟨[.function 0 ⟨⟨[], .int⟩, "f", [⟨⟨[], .int⟩, none, some ⟨some (.literal 1 (.int 2))⟩⟩],
    some [.ret 2 (some (.unary 3 .neg (.literal 4 (.int (-1)))))]⟩]⟩

def stored : Job :=
  ⟨[(.vertex, storedVertex), (.fragment, sampleFragment)],
    (Metadata.ofText storedText).toOption.getD ⟨.ofList []⟩, ⟨12⟩⟩

theorem stored_stages_assembled (metadata : Metadata) :
    Assembled ⟨[(.vertex, storedVertex), (.fragment, sampleFragment)], metadata, ⟨12⟩⟩ := by
  have hname : ProperName "f" := by
    unfold ProperName
    decide
  have hvertex : storedVertex.WellFormed := by
    simp [storedVertex, Shader.WellFormed, Declaration.WellFormed, Function.WellFormed,
      QualifiedType.WellFormed, Param.WellFormed, ArraySuffix.WellFormed, Stmt.WellFormedBody,
      Stmt.WellFormed, Expr.WellFormed, hname, Literal.token, Token.Proper, Expr.level]
  have hfirst := addShader_of_tokens hvertex
    (by decide +kernel :
      (lex "int f(int[2]) { return -0xFFFFFFFF; }".toList).tokens.map Prod.fst = _)
    (by decide +kernel) ⟨[], metadata, {}⟩ .vertex
  exact .addShader (.addShader (.empty metadata) hfirst) (sampleFragment_added _ metadata)

theorem stored_stages_legible :
    ∀ x ∈ [(Stage.vertex, storedVertex), (.fragment, sampleFragment)], x.2.Legible := by
  refine List.forall_mem_cons.2 ⟨⟨?_, ?_⟩, List.forall_mem_singleton.2 ⟨?_, ?_⟩⟩
  · simp [storedVertex, Shader.written, Declaration.written, Function.written, Param.written,
      Shader.nodes, Declaration.nodes, nodesOfSuffix, nodesOfOption, Stmt.nodesOfBody, Stmt.nodes,
      Expr.nodes, Node.Legible]
  · simp [storedVertex, Shader.written, Declaration.written, Function.written, Param.written]
  · simp [sampleFragment, Shader.written, Declaration.written, Function.written, Shader.nodes,
      Declaration.nodes, Variables.nodes, Declarator.nodes, nodesOfSuffix, nodesOfOption,
      Stmt.nodesOfBody, Stmt.nodes, Expr.nodes, Node.Legible]
  · simp [sampleFragment, Shader.written, Declaration.written, Function.written]

theorem stored_stages_steady :
    ∀ x ∈ [(Stage.vertex, storedVertex), (.fragment, sampleFragment)],
      ∀ n ∈ x.2.written.nodes, n.Steady := by
  decide

theorem storedText_read : Metadata.ofText storedText = .ok stored.metadata := by
  have hsome : (Metadata.ofText storedText).toOption.isSome := by decide +kernel
  rw [stored]
  cases h : Metadata.ofText storedText with
  | error e => simp [h, Except.toOption] at hsome
  | ok m => rfl

theorem stored_loaded :
    stored.Assembled ∧ (∀ e ∈ stored.metadata.table.entries, e.2.Plain) ∧
      (∀ n ∈ stored.metadata.toJson.numbers, n.Kept) ∧ (∀ x ∈ stored.stages, x.2.Legible) ∧
      ∃ written after, (stored.write FileTree.system "job.json").run {} = (.ok (), written) ∧
        (load FileTree.system "job.json").run written = (.ok after, written) ∧
        after.metadata = stored.metadata ∧ after.sources = stored.sources ∧
        after.fingerprint = stored.fingerprint := by
  have hjob : stored.Assembled := stored_stages_assembled _
  have hplain : ∀ e ∈ stored.metadata.table.entries, e.2.Plain := by decide +kernel
  have hkept : ∀ n ∈ stored.metadata.toJson.numbers, n.Kept := by decide +kernel
  have hnames : NamesApart "job.json" := by decide +kernel
  have hwrite : ∃ written, (stored.write FileTree.system "job.json").run {} = (.ok (), written) :=
    ⟨_, rfl⟩
  obtain ⟨written, hwrite⟩ := hwrite
  obtain ⟨after, hload, hmetadata, -, hsources, hfingerprint⟩ := load_written hjob (by simp [stored])
    storedText_read hplain (fun x hx => hkept _ hx) stored_stages_legible hnames hwrite
    fun stage _ => by cases stage <;> decide +kernel
  have hsame := hsources.2 stored_stages_steady
  exact ⟨hjob, hplain, hkept, stored_stages_legible, written, after, hwrite, hload, hmetadata,
    hsame, hfingerprint hsame⟩

/-- The source is read, but its text is refused or read as something with another text. -/
def losesText (source : String) : Bool :=
  match Shader.read source {} with
  | (.ok s, _) =>
    match Shader.read (String.ofList s.text) {} with
    | (.ok t, _) => t.text ≠ s.text
    | (.error _, _) => true
  | (.error _, _) => false

theorem exists_of_losesText {source : String} (h : losesText source) :
    ∃ s ids, Shader.read source {} = (.ok s, ids) ∧
      ∀ t ids', Shader.read (String.ofList s.text) {} = (.ok t, ids') → t.text ≠ s.text := by
  unfold losesText at h
  split at h
  · next s ids hs =>
    refine ⟨s, ids, hs, fun t ids' ht => ?_⟩
    rw [ht] at h
    exact of_decide_eq_true h
  · cases h

def losesMetadata (text : String) : Bool :=
  match Metadata.ofText text with
  | .ok m =>
    match Metadata.ofText (m.pretty ++ "\n") with
    | .ok n => n.compact ≠ m.compact
    | .error _ => true
  | .error _ => false

theorem exists_of_losesMetadata {text : String} (h : losesMetadata text) :
    ∃ m, Metadata.ofText text = .ok m ∧
      ∀ n, Metadata.ofText (m.pretty ++ "\n") = .ok n → n.compact ≠ m.compact := by
  unfold losesMetadata at h
  split at h
  · next m hm =>
    refine ⟨m, hm, fun n hn => ?_⟩
    rw [hn] at h
    exact of_decide_eq_true h
  · cases h

/-- A literal beyond the signed numbers is written as a negative one, which is read as a negation:
the least number keeps its sign after it, and another sign in front is then written apart. A point
after a whole number makes it a real one, and a parameter of an array of nothing is written as no
parameter. An entry that names a field twice becomes the record of a uniform, and a real number can
be read as another. -/
theorem texts_read_otherwise :
    (∀ source ∈ ["void main() { int x = 0x80000000; }", "void main() { int x = +0xFFFFFFFF; }",
        "void main() { 1 .x; }", "void f(void[3]);"],
      ∃ s ids, Shader.read source {} = (.ok s, ids) ∧
        ∀ t ids', Shader.read (String.ofList s.text) {} = (.ok t, ids') → t.text ≠ s.text) ∧
    ∀ text ∈ ["\x7b\"a\": \x7b\"func\": 1, \"func\": \"x\", \"args\": []\x7d\x7d",
        "\x7b\"a\": 2.920433094764055e+247\x7d"],
      ∃ m, Metadata.ofText text = .ok m ∧
        ∀ n, Metadata.ofText (m.pretty ++ "\n") = .ok n → n.compact ≠ m.compact := by
  have hsources : ∀ source ∈ ["void main() { int x = 0x80000000; }",
      "void main() { int x = +0xFFFFFFFF; }", "void main() { 1 .x; }", "void f(void[3]);"],
      losesText source := by decide +kernel
  have htexts : ∀ text ∈ ["\x7b\"a\": \x7b\"func\": 1, \"func\": \"x\", \"args\": []\x7d\x7d",
      "\x7b\"a\": 2.920433094764055e+247\x7d"], losesMetadata text := by decide +kernel
  exact ⟨fun source h => exists_of_losesText (hsources source h),
    fun text h => exists_of_losesMetadata (htexts text h)⟩

end Job

end ShaderLift
