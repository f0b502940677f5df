import Mathlib
import ShaderLift.Proofs.Identities
import ShaderLift.Proofs.ZeroCharacters

/-!
What goes into the fingerprint of a job tells its parts apart. A zero character before a part marks
its start. Directives can hold zero characters of their own, but never at the start of a line, and
every stage ends its last line.
-/

namespace ShaderLift

/-- The text ends its last line, and no line of it starts with a zero character. -/
structure Lined (text : List Char) : Prop where
  ends : ['\n'] <:+ '\n' :: text
  starts : ('\n' :: text).IsChain fun c d => c = '\n' → d ≠ '\x00'

namespace Lined

theorem nil : Lined [] := ⟨List.suffix_rfl, List.isChain_singleton _⟩

theorem append {a b : List Char} (ha : Lined a) (hb : Lined b) : Lined (a ++ b) := by
  obtain ⟨front, hfront⟩ := ha.ends
  have hsplit : '\n' :: (a ++ b) = front ++ '\n' :: b := by
    rw [← List.cons_append, ← hfront, List.append_assoc, List.singleton_append]
  refine ⟨?_, ?_⟩
  · rw [hsplit]
    exact List.suffix_append_of_suffix hb.ends
  · rw [hsplit, List.isChain_split, hfront]
    exact ⟨ha.starts, hb.starts⟩

theorem flatMap {α : Type} {f : α → List Char} {xs : List α} (h : ∀ x ∈ xs, Lined (f x)) :
    Lined (xs.flatMap f) := by
  induction xs with
  | nil => exact nil
  | cons x xs ih =>
    obtain ⟨hx, hxs⟩ := List.forall_mem_cons.1 h
    exact hx.append (ih hxs)

theorem of_zeroFree {text : List Char} (hzero : ZeroFree text) (hend : ['\n'] <:+ text) :
    Lined text := by
  refine ⟨hend.trans (List.suffix_cons _ _), ?_⟩
  have hfree : ZeroFree ('\n' :: text) := by simp [hzero]
  refine (List.pairwise_of_forall_mem_list fun c _ d hd _ => ?_).isChain
  rintro rfl
  exact hfree hd

theorem directive {text : String} (h : ProperDirective text) : Lined (text.toList ++ ['\n']) := by
  obtain ⟨hhash, hline, -⟩ := h
  obtain ⟨cs, hcs⟩ : ∃ cs, text.toList = '#' :: cs := List.head?_eq_some_iff.1 hhash
  refine ⟨List.suffix_cons_iff.2 (.inr (List.suffix_append _ _)), ?_⟩
  rw [hcs] at hline ⊢
  have hrest : ('#' :: cs ++ ['\n']).Pairwise fun c d => c = '\n' → d ≠ '\x00' := by
    refine List.pairwise_append.2 ⟨?_, List.pairwise_singleton _ _, ?_⟩
    · exact List.pairwise_of_forall_mem_list fun c hc d _ hnewline => absurd (hnewline ▸ hc) hline
    · exact fun c hc d _ hnewline => absurd (hnewline ▸ hc) hline
  exact List.isChain_cons_cons.2 ⟨fun _ => by decide, hrest.isChain⟩

end Lined

theorem Function.text_ends (f : Function) : ['\n'] <:+ f.text := by
  simp only [Function.text]
  refine List.suffix_append_of_suffix (List.suffix_cons_iff.2 (.inr ?_))
  split
  · exact List.suffix_append_of_suffix (by decide)
  · decide

theorem Declaration.text_lined {d : Declaration} (h : d.WellFormed) : Lined d.text := by
  have hsemi : ['\n'] <:+ ";\n".toList := by decide
  cases d with
  | directive id text => exact .directive h
  | precision id p t =>
    have htext : (precision id p t).text =
      "precision ".toList ++ p.text ++ ' ' :: t.text ++ ";\n".toList := rfl
    rw [htext]
    refine .of_zeroFree ?_ (List.suffix_append_of_suffix hsemi)
    simp [p.text_zeroFree, t.text_zeroFree]
  | globals id vars =>
    have htext : (globals id vars).text = vars.text ++ ['\n'] := rfl
    rw [htext]
    refine .of_zeroFree ?_ (List.suffix_append _ _)
    simp [Variables.text_zeroFree h]
  | interfaceBlock id b =>
    have htext : (interfaceBlock id b).text = b.text := rfl
    rw [htext]
    exact .of_zeroFree (InterfaceBlock.text_zeroFree h) (List.suffix_append_of_suffix hsemi)
  | qualifiers id list =>
    have hlist : ZeroFree (joinTexts [' '] (list.map Qualifier.text)) :=
      .join (by decide) (List.forall_mem_map.2 fun q hq => Qualifier.text_zeroFree (h.2 q hq))
    have htext : (qualifiers id list).text =
      joinTexts [' '] (list.map Qualifier.text) ++ ";\n".toList := rfl
    rw [htext]
    refine .of_zeroFree ?_ (List.suffix_append_of_suffix hsemi)
    simp [hlist]
  | function id f =>
    have htext : (function id f).text = f.text := rfl
    rw [htext]
    exact .of_zeroFree (Function.text_zeroFree h) f.text_ends

theorem Shader.text_lined {s : Shader} (h : s.WellFormed) : Lined s.text :=
  .flatMap fun d hd => Declaration.text_lined (h d hd)

/-- Nothing, or what starts with a zero character. -/
def Marked (cs : List Char) : Prop := ∀ c ∈ cs.head?, c = '\x00'

/-- Where what follows is marked, two parts are the same unless one of them goes on with a mark
where the other ends. -/
theorem Marked.part_eq {a b x y : List Char} (hx : Marked x) (hy : Marked y)
    (ha : ∀ more, a ≠ b ++ '\x00' :: more) (hb : ∀ more, b ≠ a ++ '\x00' :: more)
    (h : a ++ x = b ++ y) : a = b ∧ x = y := by
  rcases List.append_eq_append_iff.1 h with ⟨more, rfl, rfl⟩ | ⟨more, rfl, rfl⟩
  · cases more with
    | nil => simp
    | cons c more => exact absurd (congrArg _ (congrArg (· :: more) (hx c rfl))) (hb more)
  · cases more with
    | nil => simp
    | cons c more => exact absurd (congrArg _ (congrArg (· :: more) (hy c rfl))) (ha more)

theorem ZeroFree.not_marked {a : List Char} (h : ZeroFree a) (b more : List Char) :
    a ≠ b ++ '\x00' :: more := by
  rintro rfl
  simp at h

/-- A text that goes on after whole lines does not go on with a zero character. -/
theorem Lined.not_marked {a b : List Char} (ha : Lined a) (hb : Lined b) (more : List Char) :
    a ≠ b ++ '\x00' :: more := by
  rintro rfl
  obtain ⟨front, hfront⟩ := hb.ends
  have hstarts := ha.starts
  rw [← List.cons_append, ← hfront, List.append_assoc, List.singleton_append,
    List.isChain_split] at hstarts
  exact (List.isChain_cons_cons.1 hstarts.2).1 rfl rfl

namespace Job

def digestStages (stages : List (Stage × Shader)) : List Char :=
  stages.flatMap fun (stage, shader) =>
    '\x00' :: stage.extension.toList ++ '\x00' :: shader.text

theorem digestInput_stages (job : Job) :
    job.digestInput = job.metadata.toJson.compact ++ digestStages job.stages := rfl

theorem digestStages_cons (stage : Stage) (s : Shader) (stages : List (Stage × Shader)) :
    digestStages ((stage, s) :: stages) =
      '\x00' :: (stage.extension.toList ++ '\x00' :: (s.text ++ digestStages stages)) := by
  simp [digestStages]

theorem digestStages_marked (stages : List (Stage × Shader)) : Marked (digestStages stages) := by
  cases stages with
  | nil => simp [Marked, digestStages]
  | cons x stages =>
    rw [digestStages_cons]
    simp [Marked]

theorem extension_zeroFree (stage : Stage) : ZeroFree stage.extension.toList := by
  cases stage <;> decide

theorem extension_injective : Function.Injective Stage.extension := by
  intro a b h
  cases a <;> cases b <;> first | rfl | exact absurd h (by decide)

theorem digestStages_eq {as bs : List (Stage × Shader)} (ha : ∀ x ∈ as, x.2.WellFormed)
    (hb : ∀ x ∈ bs, x.2.WellFormed) (h : digestStages as = digestStages bs) :
    as.map Prod.fst = bs.map Prod.fst ∧
      as.map (fun x => x.2.text) = bs.map fun x => x.2.text := by
  induction as generalizing bs with
  | nil =>
    cases bs with
    | nil => exact ⟨rfl, rfl⟩
    | cons y bs =>
      rw [digestStages_cons] at h
      cases h
  | cons x as ih =>
    obtain ⟨stage, s⟩ := x
    cases bs with
    | nil =>
      rw [digestStages_cons] at h
      cases h
    | cons y bs =>
      obtain ⟨stage', t⟩ := y
      obtain ⟨hs, has⟩ := List.forall_mem_cons.1 ha
      obtain ⟨ht, hbs⟩ := List.forall_mem_cons.1 hb
      rw [digestStages_cons, digestStages_cons] at h
      have hmarked : ∀ cs : List Char, Marked ('\x00' :: cs) := by simp [Marked]
      obtain ⟨hextension, hrest⟩ := Marked.part_eq (hmarked _) (hmarked _)
        ((extension_zeroFree stage).not_marked _) ((extension_zeroFree stage').not_marked _)
        (List.cons.inj h).2
      have hlined := Shader.text_lined hs
      have hlined' := Shader.text_lined ht
      obtain ⟨htext, hstages⟩ := Marked.part_eq (digestStages_marked as) (digestStages_marked bs)
        (hlined.not_marked hlined') (hlined'.not_marked hlined) (List.cons.inj hrest).2
      obtain ⟨hkinds, htexts⟩ := ih has hbs hstages
      rw [List.map_cons, List.map_cons, List.map_cons, List.map_cons, hkinds, htexts]
      exact ⟨congrArg (· :: _) (extension_injective (String.toList_injective hextension)),
        congrArg (· :: _) htext⟩

theorem byteList_loop (bytes : ByteArray) (i : Nat) (before : List UInt8) :
    ByteArray.toList.loop bytes i before = before.reverse ++ bytes.data.toList.drop i := by
  fun_induction ByteArray.toList.loop bytes i before with
  | case1 i before h ih =>
    have hi : i < bytes.data.toList.length := h
    have hbyte : bytes.get! i = bytes.data.toList[i] := getElem!_pos bytes.data i h
    rw [ih, List.drop_eq_getElem_cons hi, hbyte]
    simp
  | case2 i before h =>
    have hi : bytes.data.toList.length ≤ i := Nat.le_of_not_lt h
    rw [List.drop_eq_nil_of_le hi, List.append_nil]

theorem byteList_injective : Function.Injective ByteArray.toList := by
  intro a b h
  have hlist : ∀ bytes : ByteArray, bytes.toList = bytes.data.toList := by
    intro bytes
    rw [ByteArray.toList, byteList_loop]
    rfl
  rw [hlist, hlist] at h
  exact ByteArray.ext (Array.toList_inj.1 h)

/-- If the same bytes go into the fingerprints of two jobs, however these came about, the jobs have
metadata of the same text, the same stages, and in each stage the same text. -/
theorem digestInput_unambiguous {a b : Job} (ha : a.Reachable) (hb : b.Reachable)
    (h : (String.ofList a.digestInput).toUTF8.toList =
      (String.ofList b.digestInput).toUTF8.toList) :
    a.metadata.compact = b.metadata.compact ∧ a.stages.map Prod.fst = b.stages.map Prod.fst ∧
      a.stages.map (fun x => x.2.text) = b.stages.map fun x => x.2.text := by
  have htexts : a.digestInput = b.digestInput :=
    String.ofList_injective (String.toByteArray_inj.1 (byteList_injective h))
  rw [digestInput_stages, digestInput_stages] at htexts
  obtain ⟨hmetadata, hstages⟩ := Marked.part_eq (digestStages_marked a.stages)
    (digestStages_marked b.stages) (a.metadata.toJson.compact_zeroFree.not_marked _)
    (b.metadata.toJson.compact_zeroFree.not_marked _) htexts
  exact ⟨congrArg String.ofList hmetadata,
    digestStages_eq ha.sound.wellFormed hb.sound.wellFormed hstages⟩

def fragmentOf (source : String) : Job :=
  (⟨[], ⟨.ofList []⟩, {}⟩ : Job).serveAll [.add .fragment source]

/-- A directive that looks like the start of another stage. -/
def zeroDirective : Job := fragmentOf "#\x00frag\x00\nint f();"

def zeroDirectiveSpaced : Job := fragmentOf "#\x00frag\x00  \nint f(void) ;"

theorem zeroDirective_told :
    zeroDirective.Reachable ∧ zeroDirectiveSpaced.Reachable ∧
    zeroDirective.digestInput = "\x7b\x7d\x00frag\x00#\x00frag\x00\nint f();\n".toList ∧
    (String.ofList zeroDirective.digestInput).toUTF8.toList =
      (String.ofList zeroDirectiveSpaced.digestInput).toUTF8.toList ∧
    zeroDirective.metadata.compact = zeroDirectiveSpaced.metadata.compact ∧
    zeroDirective.stages.map Prod.fst = zeroDirectiveSpaced.stages.map Prod.fst ∧
    zeroDirective.stages.map (fun x => x.2.text) =
      zeroDirectiveSpaced.stages.map fun x => x.2.text := by
  have hreachable : zeroDirective.Reachable := (empty_reachable _).serveAll _
  have hreachable' : zeroDirectiveSpaced.Reachable := (empty_reachable _).serveAll _
  have hinput : zeroDirective.digestInput =
      "\x7b\x7d\x00frag\x00#\x00frag\x00\nint f();\n".toList := by decide +kernel
  have hsame : zeroDirective.digestInput = zeroDirectiveSpaced.digestInput := by decide +kernel
  have hbytes := congrArg (fun text => (String.ofList text).toUTF8.toList) hsame
  exact ⟨hreachable, hreachable', hinput, hbytes,
    digestInput_unambiguous hreachable hreachable' hbytes⟩

end Job

end ShaderLift
