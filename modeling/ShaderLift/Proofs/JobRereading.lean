import Mathlib
import ShaderLift.Proofs.JobSteps
import ShaderLift.Proofs.ShaderRereading
import ShaderLift.Proofs.TreeText

/-!
The text of a shader is read back as the shader, up to its identities, whatever was done to the
job before.
-/

namespace ShaderLift

/-- A source whose tokens are those of a shader is read as that shader with new identities. -/
theorem Shader.read_of_tokens {source : String} {s : Shader} (hwf : s.WellFormed)
    (htokens : (lex source.toList).tokens.map Prod.fst = s.tokens)
    (herrors : (lex source.toList).errors = []) (ids : IdSupply) :
    Shader.read source ids =
      (.ok (s.unnumbered.number ids).1, (s.unnumbered.number ids).2) := by
  refine read_of_parsed ?_ ids
  rw [Parsed.ofSource, htokens, herrors, ofTokens?_tokens hwf]

theorem Shader.read_text {s : Shader} (hwf : s.WellFormed) (hlegible : s.Legible) (ids : IdSupply) :
    Shader.read (String.ofList s.text) ids =
      (.ok (s.reread.unnumbered.number ids).1, (s.reread.unnumbered.number ids).2) := by
  obtain ⟨htokens, herrors⟩ := lex_text hwf hlegible.nodes
  rw [← String.toList_ofList (l := s.text)] at htokens herrors
  exact read_of_tokens (reread_wellFormed hwf hlegible) htokens herrors ids

/-- There is nothing left to forget in what tokens spell. -/
theorem Shader.unnumbered_reread {s : Shader} (hwf : s.WellFormed) (hlegible : s.Legible) :
    s.reread.unnumbered.unnumbered = s.reread.unnumbered := by
  have hproper : Grammar.ProperTokens ((lex s.text).tokens.map Prod.fst) :=
    List.forall_mem_map.2 (lex_proper s.text)
  rw [(lex_text hwf hlegible.nodes).1] at hproper
  exact (ofTokens?_given hproper (ofTokens?_tokens (reread_wellFormed hwf hlegible))).2

namespace Job

theorem addShader_of_tokens {source : String} {s : Shader} (hwf : s.WellFormed)
    (htokens : (lex source.toList).tokens.map Prod.fst = s.tokens)
    (herrors : (lex source.toList).errors = []) (job : Job) (stage : Stage) :
    job.addShader stage source = (.ok (),
      ⟨putStage stage (s.unnumbered.number job.ids).1 job.stages, job.metadata,
        (s.unnumbered.number job.ids).2⟩) := by
  rw [addShader, Shader.read_of_tokens hwf htokens herrors]

/-- However a job came about, the text of each of its printable shaders is read back, and what is
read is the shader itself up to identities. -/
theorem text_reads_back {job : Job} (h : job.Reachable) {stage : Stage} {s : Shader}
    (hs : (stage, s) ∈ job.stages) (hprint : AllPrintable s.nodes) (ids : IdSupply) :
    ∃ t ids', Shader.read (String.ofList s.text) ids = (.ok t, ids') ∧
      t.unnumbered = s.unnumbered := by
  have hwf := h.sound.wellFormed _ hs
  have hlegible := Shader.legible_of_printable hwf hprint
  refine ⟨_, _, Shader.read_text hwf hlegible ids, ?_⟩
  rw [Shader.unnumbered_number, Shader.unnumbered_reread hwf hlegible,
    Shader.reread_of_printable hprint]

def sampleVertex : Shader :=
  ⟨[.function 0 ⟨⟨[], .int⟩, "f", [⟨⟨[], .int⟩, some "a", none⟩],
    some [.ret 1 (some (.binary 2 .mul (.name 3 "a") (.literal 4 (.int 7))))]⟩]⟩

def sampleFragment : Shader :=
  ⟨[.function 5 ⟨⟨[], .void⟩, "main", [],
    some [.declare 6 ⟨⟨[], .int⟩, [⟨"x", none, some (.literal 7 (.int 7))⟩]⟩,
      .expr 8 (.assign 9 .add (.name 10 "x") (.literal 11 (.int 3)))]⟩]⟩

def sample : Job := ⟨[(.vertex, sampleVertex), (.fragment, sampleFragment)], ⟨.ofList []⟩, ⟨12⟩⟩

theorem sampleFragment_added (vertex : Shader) (metadata : Metadata) :
    addShader ⟨[(.vertex, vertex)], metadata, ⟨5⟩⟩ .fragment "void main() { int x = 7; x += 3; }" =
      (.ok (), ⟨[(.vertex, vertex), (.fragment, sampleFragment)], metadata, ⟨12⟩⟩) := by
  have hname : ProperName "x" ∧ ProperName "main" := by
    unfold ProperName
    decide
  have hfragment : sampleFragment.WellFormed := by
    simp [sampleFragment, Shader.WellFormed, Declaration.WellFormed, Function.WellFormed,
      QualifiedType.WellFormed, Variables.WellFormed, Declarator.WellFormed, Stmt.WellFormedBody,
      Stmt.WellFormed, Expr.WellFormed, hname, Literal.token, Token.Proper, Expr.level]
  exact addShader_of_tokens hfragment (by decide +kernel) (by decide +kernel) _ .fragment

theorem sample_stages_assembled (metadata : Metadata) :
    Assembled ⟨[(.vertex, sampleVertex), (.fragment, sampleFragment)], metadata, ⟨12⟩⟩ := by
  have hname : ProperName "a" ∧ ProperName "f" := by
    unfold ProperName
    decide
  have hvertex : sampleVertex.WellFormed := by
    simp [sampleVertex, Shader.WellFormed, Declaration.WellFormed, Function.WellFormed,
      QualifiedType.WellFormed, Param.WellFormed, Stmt.WellFormedBody, Stmt.WellFormed,
      Expr.WellFormed, hname, Literal.token, Token.Proper, Expr.level]
  have hfirst := addShader_of_tokens hvertex
    (by decide +kernel : (lex "int f(int a) { return a * 7; }".toList).tokens.map Prod.fst = _)
    (by decide +kernel) ⟨[], metadata, {}⟩ .vertex
  exact .addShader (.addShader (.empty metadata) hfirst) (sampleFragment_added _ metadata)

theorem sample_assembled : sample.Assembled := sample_stages_assembled _

/-- The fragment shader once its last literal has been promoted. -/
def sampleLifted : Shader :=
  ⟨[.globals 15 ⟨⟨[.uniform], .int⟩,
      [⟨"_GLF_uniform_int_values", some ⟨some (.literal 14 (.int 1))⟩, none⟩]⟩,
    .function 5 ⟨⟨[], .void⟩, "main", [],
      some [.declare 6 ⟨⟨[], .int⟩, [⟨"x", none, some (.literal 7 (.int 7))⟩]⟩,
        .expr 8 (.assign 9 .add (.name 10 "x")
          (.index 18 (.name 16 "_GLF_uniform_int_values") (.literal 17 (.int 0))))]⟩]⟩

theorem sampleLifted_reads_back :
    ∃ job : Job, job.Reachable ∧ (Stage.fragment, sampleLifted) ∈ job.stages ∧
      AllPrintable sampleLifted.nodes ∧
      ∃ t ids', Shader.read (String.ofList sampleLifted.text) {} = (.ok t, ids') ∧
        t.unnumbered = sampleLifted.unnumbered := by
  have hfind : ∃ found after, sample.findPromotions = (.ok found, after) ∧
      (Stage.fragment, sampleLifted) ∈ (after.apply ⟨.fragment, 11, .int 3, 3⟩).2.stages :=
    ⟨_, _, rfl, List.mem_cons_of_mem _ List.mem_cons_self⟩
  obtain ⟨found, after, hfind, hmem⟩ := hfind
  have hreachable := Reachable.apply (.find (.assembled sample_assembled) hfind)
    ⟨.fragment, 11, .int 3, 3⟩
  have hprint : AllPrintable sampleLifted.nodes := by
    simp [sampleLifted, Shader.nodes, Declaration.nodes, Node.Printable, Variables.nodes,
      Declarator.nodes, nodesOfSuffix, nodesOfOption, Stmt.nodesOfBody, Stmt.nodes, Expr.nodes]
  exact ⟨_, hreachable, hmem, hprint, text_reads_back hreachable hmem hprint {}⟩

end Job

end ShaderLift
