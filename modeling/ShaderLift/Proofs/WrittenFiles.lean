import Mathlib
import ShaderLift.Files.Tree
import ShaderLift.Job.Storage
import ShaderLift.Proofs.JobSteps

/-!
Files that were written are read back. A write that goes through puts a file where its path leads and
changes nothing else in the tree, and names in one folder lead to different places; so once all files
of a job are written, each is there with its text.
-/

namespace ShaderLift

namespace FileTree

variable {t t' : FileTree} {place other start r : List String} {content : List UInt8}

theorem isSome_get? :
    (t.get? place).isSome ↔ isAncestor place ∨ ∃ e ∈ t.entries, place <+: e.1 := by
  rw [get?]
  split
  · next file hlookup =>
    refine iff_of_true rfl (.inr ?_)
    obtain ⟨before, after, hentries, -⟩ := List.lookup_eq_some_iff.1 hlookup
    exact ⟨(place, file), by simp [hentries], List.prefix_refl place⟩
  · split
    · next h => simpa using h
    · next h => simpa using h

theorem isAncestor_mono (h : other <+: place) (hplace : isAncestor place) :
    isAncestor other := by
  simp only [isAncestor, Bool.or_eq_true, List.all_eq_true, decide_eq_true_eq] at hplace ⊢
  rcases hplace with hall | rfl
  · exact .inl fun name hname => hall name (h.subset hname)
  · rcases List.prefix_cons_iff.1 h with rfl | ⟨rest, rfl, hrest⟩
    · exact .inl nofun
    · rw [List.prefix_nil.1 hrest]
      exact .inr rfl

theorem isSome_of_prefix (h : other <+: place) (hplace : (t.get? place).isSome) :
    (t.get? other).isSome := by
  rcases isSome_get?.1 hplace with hancestor | ⟨e, he, hprefix⟩
  · exact isSome_get?.2 (.inl (isAncestor_mono h hancestor))
  · exact isSome_get?.2 (.inr ⟨e, he, h.trans hprefix⟩)

theorem lookup_put (h : other ≠ place) :
    (t.put place content).entries.lookup other = t.entries.lookup other := by
  have hne : (other == place) = false := beq_false_of_ne h
  have hfirst : (t.put place content).entries.lookup other =
      (t.entries.filter fun e => e.1 ≠ place).lookup other := by
    rw [put, List.lookup_cons, hne]
  rw [hfirst]
  induction t.entries with
  | nil => rfl
  | cons e rest ih =>
    by_cases he : e.1 = place
    · rw [List.filter_cons_of_neg (by simpa using he), ih, List.lookup_cons, he, hne]
    · rw [List.filter_cons_of_pos (by simpa using he), List.lookup_cons, List.lookup_cons, ih]

theorem get?_congr (hlookup : t'.entries.lookup place = t.entries.lookup place)
    (hsome : (t'.get? place).isSome ↔ (t.get? place).isSome) : t'.get? place = t.get? place := by
  simp only [get?, hlookup] at hsome ⊢
  split
  · rfl
  · next h =>
    simp only [h] at hsome
    split <;> split <;> simp_all

/-- The second tree has a file where the first has no directory, and is the first elsewhere. -/
structure Puts (t : FileTree) (place : List String) (content : List UInt8) (t' : FileTree) : Prop
    where
  before : t.get? place ≠ some .directory
  after : t'.get? place = some (.bytes content)
  others : ∀ other, other ≠ place → t'.get? other = t.get? other

theorem puts_put (hplace : t.get? place ≠ some .directory)
    (hway : ∀ other, other <+: place → other ≠ place → (t.get? other).isSome) :
    t.Puts place content (t.put place content) := by
  refine ⟨hplace, by simp [get?, put], fun other hne => ?_⟩
  have hsome : ((t.put place content).get? other).isSome ↔ (t.get? other).isSome := by
    rw [isSome_get?, isSome_get?]
    constructor
    · rintro (hancestor | ⟨e, he, hprefix⟩)
      · exact .inl hancestor
      · rcases List.mem_cons.1 he with rfl | he
        · exact isSome_get?.1 (hway other hprefix hne)
        · exact .inr ⟨e, List.mem_of_mem_filter he, hprefix⟩
    · rintro (hancestor | ⟨e, he, hprefix⟩)
      · exact .inl hancestor
      · by_cases heq : e.1 = place
        · exact .inr ⟨_, List.mem_cons_self, heq ▸ hprefix⟩
        · exact .inr ⟨e, List.mem_cons_of_mem _ (List.mem_filter.2 ⟨he, by simpa using heq⟩), hprefix⟩
  exact get?_congr (lookup_put hne) hsome

theorem enter_eq_ok : t.enter place = .ok () ↔ t.get? place = some .directory := by
  rw [enter]
  split <;> simp_all

theorem follow_cons {name : String} {rest : List String} :
    t.follow start (name :: rest) = .ok r ↔ t.get? start = some .directory ∧
      name.utf8ByteSize ≤ nameLimit ∧ t.follow (step start name) rest = .ok r := by
  rw [follow, ← enter_eq_ok]
  constructor
  · intro h
    obtain ⟨_, henter, h⟩ := bind_eq_ok.1 h
    split at h
    · cases h
    · next hsize => exact ⟨henter, Nat.le_of_not_gt hsize, h⟩
  · rintro ⟨henter, hsize, h⟩
    refine bind_eq_ok.2 ⟨(), henter, ?_⟩
    rw [if_neg (Nat.not_lt.2 hsize)]
    exact h

theorem follow_append {names more : List String} :
    t.follow start (names ++ more) = .ok r ↔
      ∃ folder, t.follow start names = .ok folder ∧ t.follow folder more = .ok r := by
  induction names generalizing start with
  | nil => simp [follow]
  | cons name names ih => simp only [List.cons_append, follow_cons, ih]; grind

/-- Paths lead to the same places as before. -/
theorem Puts.follow (h : t.Puts place content t') {names : List String} :
    t'.follow start names = .ok r ↔ t.follow start names = .ok r := by
  induction names generalizing start with
  | nil => rfl
  | cons name names ih =>
    -- no path goes on from a file
    have hdirectory : t'.get? start = some .directory ↔ t.get? start = some .directory := by
      by_cases hstart : start = place
      · rw [hstart, h.after]
        exact iff_of_false nofun h.before
      · rw [h.others start hstart]
    rw [follow_cons, follow_cons, hdirectory, ih]

theorem follow_of_filter {names : List String} {last : String} (hlast : last ≠ "")
    (h : t.follow start ((names ++ [last]).filter (· ≠ "")) = .ok r) :
    t.follow start (names ++ [last]) = .ok r := by
  induction names generalizing start with
  | nil => simpa [hlast] using h
  | cons name names ih =>
    rw [List.cons_append] at h ⊢
    by_cases hname : name = ""
    · subst hname
      rw [List.filter_cons_of_neg (by simp)] at h
      have hmore : (names ++ [last]).filter (· ≠ "") ≠ [] :=
        List.ne_nil_of_mem (List.mem_filter.2 ⟨by simp, by simpa using hlast⟩ : last ∈ _)
      obtain ⟨next, more, hfilter⟩ := List.exists_cons_of_ne_nil hmore
      have hstart := h
      rw [hfilter, follow_cons] at hstart
      exact follow_cons.2 ⟨hstart.1, Nat.zero_le _, ih h⟩
    · rw [List.filter_cons_of_pos (by simpa using hname), follow_cons] at h
      obtain ⟨hstart, hsize, h⟩ := h
      exact follow_cons.2 ⟨hstart, hsize, ih h⟩

theorem step_cases (folder : List String) (name : String) :
    step folder name <+: folder ∨ ∃ last, step folder name = folder ++ [last] := by
  unfold step parent
  split
  · exact .inl (List.prefix_refl _)
  · split
    · split
      · exact .inl (List.prefix_refl _)
      · split
        · exact .inr ⟨_, rfl⟩
        · exact .inl (List.dropLast_prefix _)
    · exact .inr ⟨_, rfl⟩

theorem step_way {folder : List String} {name : String} (h : other <+: step folder name)
    (hne : other ≠ step folder name) : other <+: folder := by
  rcases step_cases folder name with hstep | ⟨last, hstep⟩
  · exact h.trans hstep
  · rw [hstep] at h hne
    exact (List.prefix_concat_iff.1 h).resolve_left hne

end FileTree

namespace FileName

/-- The folder of a path: nothing, or what ends in a slash. -/
def Folder (f : List Char) : Prop := f = [] ∨ ∃ g, f = g ++ ['/']

/-- A name that does not stand for a directory. -/
structure Plain (name : List Char) : Prop where
  noSlash : '/' ∉ name
  ne_nil : name ≠ []
  ne_dot : name ≠ ['.']
  ne_dots : name ≠ ['.', '.']

def InFolder (f : List Char) (path : String) : Prop := ∃ name, Plain name ∧ path.toList = f ++ name

theorem exists_folder (path : List Char) : ∃ f name, Folder f ∧ '/' ∉ name ∧ path = f ++ name := by
  induction path using List.reverseRecOn with
  | nil => exact ⟨[], [], .inl rfl, by simp, rfl⟩
  | append_singleton path c ih =>
    by_cases hc : c = '/'
    · exact ⟨path ++ [c], [], .inr ⟨path, by rw [hc]⟩, by simp, by simp⟩
    · obtain ⟨f, name, hf, hname, rfl⟩ := ih
      exact ⟨f, name ++ [c], hf, by simp [hname, Ne.symm hc], by simp⟩

end FileName

namespace FileTree

open FileName

variable {t t' : FileTree} {r : List String} {path text : String}

theorem names_folder {f : List Char} (hf : Folder f) : ∃ before, ∀ {path : String} {name},
    '/' ∉ name → path.toList = f ++ name → names path = before ++ [String.ofList name] := by
  obtain rfl | ⟨g, rfl⟩ := hf
  · refine ⟨[], fun {path name} hname hpath => ?_⟩
    rw [names, hpath, List.nil_append, List.splitOn_eq_singleton hname]
    rfl
  · refine ⟨(g.splitOn '/').map String.ofList, fun {path name} hname hpath => ?_⟩
    rw [names, hpath, List.append_assoc, List.singleton_append, List.splitOn_append_cons_self,
      List.splitOn_eq_singleton hname]
    simp

theorem start_ne_nil (h : FileTree.start path = .ok r) : path.toList ≠ [] := by
  intro hnil
  unfold FileTree.start at h
  rw [hnil] at h
  split at h
  · cases h
  · split at h
    · cases h
    · cases h

/-- The directory that a path in a folder starts from. -/
def origin (f : List Char) : List String := if f.head? = some '/' then ["/"] else []

theorem start_folder {f name : List Char} (hname : '/' ∉ name) (hnil : name ≠ [])
    (hpath : path.toList = f ++ name) (h : FileTree.start path = .ok r) : r = origin f := by
  unfold FileTree.start at h
  rw [hpath] at h
  split at h
  · cases h
  · split at h
    · cases h
    · cases f with
      | nil =>
        obtain ⟨c, rest, rfl⟩ := List.exists_cons_of_ne_nil hnil
        have hc : c ≠ '/' := fun hc => hname (by simp [hc])
        simp only [List.nil_append, if_neg hc] at h
        exact (Except.ok.inj h).symm
      | cons c rest =>
        simp only [List.cons_append] at h
        rw [← Except.ok.inj h]
        simp [origin]

/-- A path leads through its folder, whose place does not depend on the name that follows. -/
theorem resolve_folder {f : List Char} (hf : Folder f) : ∃ before, ∀ {path : String} {name},
    '/' ∉ name → name ≠ [] → path.toList = f ++ name → ∀ {t : FileTree} {r}, t.resolve path = .ok r →
      ∃ folder, t.follow (origin f) before = .ok folder ∧ t.get? folder = some .directory ∧
        r = step folder (String.ofList name) := by
  obtain ⟨before, hnames⟩ := names_folder hf
  refine ⟨before, fun {path name} hname hnil hpath {t r} h => ?_⟩
  obtain ⟨first, hstart, h⟩ := bind_eq_ok.1 h
  rw [start_folder hname hnil hpath hstart, hnames hname hpath] at h
  obtain ⟨folder, hfolder, hstep⟩ := follow_append.1 h
  obtain ⟨hdirectory, -, hstep⟩ := follow_cons.1 hstep
  exact ⟨folder, hfolder, hdirectory, (Except.ok.inj hstep).symm⟩

theorem step_plain {name : List Char} (h : Plain name) (folder : List String) :
    step folder (String.ofList name) = folder ++ [String.ofList name] := by
  have hne {other : String} (hother : name ≠ other.toList) : String.ofList name ≠ other := by
    rintro rfl
    exact hother (by simp)
  have hnil : String.ofList name ≠ "" := hne h.ne_nil
  have hdot : String.ofList name ≠ "." := hne h.ne_dot
  have hdots : String.ofList name ≠ ".." := hne h.ne_dots
  simp [step, hnil, hdot, hdots]

theorem resolve_injective {f : List Char} (hf : Folder f) {path other : String}
    (hpath : InFolder f path) (hother : InFolder f other) (h : t.resolve path = .ok r)
    (h' : t.resolve other = .ok r) : path = other := by
  obtain ⟨before, hresolve⟩ := resolve_folder hf
  obtain ⟨name, hname, hpath⟩ := hpath
  obtain ⟨name', hname', hother⟩ := hother
  obtain ⟨folder, hfolder, -, hr⟩ := hresolve hname.noSlash hname.ne_nil hpath h
  obtain ⟨folder', hfolder', -, hr'⟩ := hresolve hname'.noSlash hname'.ne_nil hother h'
  obtain rfl := Except.ok.inj (hfolder.symm.trans hfolder')
  rw [hr, step_plain hname, step_plain hname', List.append_cancel_left_eq] at hr'
  have heq : name = name' := String.ofList_injective (List.singleton_inj.1 hr')
  exact String.toList_injective (by rw [hpath, hother, heq])

theorem resolve_puts {place : List String} {content : List UInt8} (hputs : t.Puts place content t') :
    t'.resolve path = .ok r ↔ t.resolve path = .ok r := by
  unfold resolve
  simp only [bind_eq_ok, hputs.follow]

theorem name_of_write {f name : List Char} (h : t.write path text = .ok t') (hf : Folder f)
    (hpath : path.toList = f ++ name) : name ≠ [] := by
  obtain ⟨first, hstart, h⟩ := bind_eq_ok.1 h
  obtain ⟨_, -, h⟩ := bind_eq_ok.1 h
  obtain ⟨_, -, h⟩ := bind_eq_ok.1 h
  rintro rfl
  obtain rfl | ⟨g, rfl⟩ := hf
  · exact start_ne_nil hstart hpath
  · rw [if_pos (by simp [hpath])] at h
    cases h

/-- A write that goes through puts a file where its path leads. -/
theorem write_puts (hwrite : t.write path text = .ok t') : ∃ place, t.resolve path = .ok place ∧
    t'.resolve path = .ok place ∧ t.Puts place text.toUTF8.data.toList t' := by
  obtain ⟨first, hstart, h⟩ := bind_eq_ok.1 hwrite
  obtain ⟨folder, hfolder, h⟩ := bind_eq_ok.1 h
  obtain ⟨_, -, h⟩ := bind_eq_ok.1 h
  split at h
  · cases h
  obtain ⟨place, hplace, h⟩ := bind_eq_ok.1 h
  obtain ⟨f, name, hf, hname, hpath⟩ := exists_folder path.toList
  have hnil := name_of_write hwrite hf hpath
  have hresolve : t.resolve path = .ok place := by
    obtain ⟨before, hnames⟩ := names_folder hf
    refine bind_eq_ok.2 ⟨first, hstart, ?_⟩
    have hfollow := follow_append.2 ⟨folder, hfolder, hplace⟩
    rw [List.dropLast_eq_take, List.take_append_drop, hnames hname hpath] at hfollow
    rw [hnames hname hpath]
    refine follow_of_filter (fun hempty => hnil ?_) hfollow
    exact String.ofList_injective hempty
  obtain ⟨before, hparts⟩ := resolve_folder hf
  obtain ⟨folder, -, hdirectory, rfl⟩ := hparts hname hnil hpath hresolve
  have hputs : t.Puts (step folder (String.ofList name)) text.toUTF8.data.toList t' := by
    split at h
    · cases h
    · next hno =>
      obtain rfl := Except.ok.inj h
      exact puts_put hno fun other hother hne =>
        isSome_of_prefix (step_way hother hne) (Option.isSome_iff_exists.2 ⟨_, hdirectory⟩)
  exact ⟨_, hresolve, (resolve_puts hputs).2 hresolve, hputs⟩

theorem read_eq_ok : t.read path = .ok text ↔ ∃ place content, t.resolve path = .ok place ∧
    t.get? place = some (.bytes content) ∧ String.fromUTF8? ⟨content.toArray⟩ = some text := by
  constructor
  · intro h
    obtain ⟨place, hplace, h⟩ := bind_eq_ok.1 h
    split at h
    · cases h
    · cases h
    · next content hcontent =>
      split at h
      · next hdecoded =>
        obtain rfl := Except.ok.inj h
        exact ⟨place, content, hplace, hcontent, hdecoded⟩
      · cases h
  · rintro ⟨place, content, hplace, hcontent, hdecoded⟩
    refine bind_eq_ok.2 ⟨place, hplace, ?_⟩
    rw [hcontent]
    simp only [hdecoded]
    rfl

theorem system_write (h : FileTree.system.write path text t = (.ok (), t')) :
    t.write path text = .ok t' := by
  have hget (f : FileTree → StateM FileTree (Except FileError Unit)) : (get >>= f) t = f t t := rfl
  simp only [system, hget] at h
  generalize t.write path text = result at h
  cases result with
  | error e => cases (Prod.mk.inj h).1
  | ok written => exact congrArg Except.ok (Prod.mk.inj h).2

theorem fromUTF8?_toUTF8 (text : String) :
    String.fromUTF8? ⟨text.toUTF8.data.toList.toArray⟩ = some text := by
  rw [Array.toArray_toList]
  change String.fromUTF8? text.toByteArray = some text
  unfold String.fromUTF8?
  rw [dif_pos text.isValidUTF8]
  rfl

theorem read_written (h : t.write path text = .ok t') : t'.read path = .ok text := by
  obtain ⟨place, -, hplace, hputs⟩ := write_puts h
  exact read_eq_ok.2 ⟨place, _, hplace, hputs.after, fromUTF8?_toUTF8 text⟩

theorem exists?_iff : t.exists? path ↔ ∃ place, t.resolve path = .ok place ∧
    (t.get? place).isSome := by
  cases h : t.resolve path with
  | error e => simp [exists?, h]
  | ok place => simp [exists?, h]

theorem exists?_of_read (h : t.read path = .ok text) : t.exists? path := by
  obtain ⟨place, content, hplace, hcontent, -⟩ := read_eq_ok.1 h
  exact exists?_iff.2 ⟨place, hplace, Option.isSome_iff_exists.2 ⟨_, hcontent⟩⟩

section

variable {f : List Char} {other : String}

theorem get?_written (hf : Folder f) (hpath : InFolder f path) (hother : InFolder f other)
    (hne : other ≠ path) (h : t.write path text = .ok t') (hplace : t.resolve other = .ok r) :
    t'.resolve other = .ok r ∧ t'.get? r = t.get? r := by
  obtain ⟨place, hwritten, -, hputs⟩ := write_puts h
  refine ⟨(resolve_puts hputs).2 hplace, hputs.others r ?_⟩
  rintro rfl
  exact hne (resolve_injective hf hother hpath hplace hwritten)

theorem read_kept (hf : Folder f) (hpath : InFolder f path) (hother : InFolder f other)
    (hne : other ≠ path) (h : t.write path text = .ok t') {kept : String}
    (hread : t.read other = .ok kept) : t'.read other = .ok kept := by
  obtain ⟨r, content, hplace, hcontent, hdecoded⟩ := read_eq_ok.1 hread
  obtain ⟨hplace', hget⟩ := get?_written hf hpath hother hne h hplace
  exact read_eq_ok.2 ⟨r, content, hplace', hget.trans hcontent, hdecoded⟩

theorem exists?_kept (hf : Folder f) (hpath : InFolder f path) (hother : InFolder f other)
    (hne : other ≠ path) (h : t.write path text = .ok t') :
    t'.exists? other = t.exists? other := by
  rw [Bool.eq_iff_iff, exists?_iff, exists?_iff]
  obtain ⟨place, -, -, hputs⟩ := write_puts h
  constructor
  · rintro ⟨r, hr, hsome⟩
    rw [resolve_puts hputs] at hr
    exact ⟨r, hr, (get?_written hf hpath hother hne h hr).2 ▸ hsome⟩
  · rintro ⟨r, hr, hsome⟩
    obtain ⟨hr', hget⟩ := get?_written hf hpath hother hne h hr
    exact ⟨r, hr', hget ▸ hsome⟩

end

end FileTree

namespace FileName

variable {f name : List Char}

theorem span_folder (hf : Folder f) (hname : '/' ∉ name) :
    (f ++ name).reverse.span (· ≠ '/') = (name.reverse, f.reverse) := by
  have hall : ∀ c ∈ name.reverse, decide (c ≠ '/') := by
    intro c hc
    have hne : c ≠ '/' := fun heq => hname (List.mem_reverse.1 (heq ▸ hc))
    simpa using hne
  rw [List.span_eq_takeWhile_dropWhile, List.reverse_append, List.takeWhile_append_of_pos hall,
    List.dropWhile_append_of_pos hall]
  obtain rfl | ⟨g, rfl⟩ := hf
  · simp
  · simp

theorem dropExtension_folder (hf : Folder f) (hname : Plain name) :
    ∃ rest, dropExtension (f ++ name) = f ++ rest ∧ '/' ∉ rest ∧ rest ≠ [] ∧ rest ≠ ['.'] := by
  rw [dropExtension, span_folder hf hname.noSlash]
  simp only
  split
  · next dot c before hdrop =>
    refine ⟨(dot :: c :: before).reverse, by simp, fun hslash => hname.noSlash ?_, by simp,
      fun heq => by simpa using congrArg List.length heq⟩
    rw [List.mem_reverse, ← hdrop] at hslash
    exact List.mem_reverse.1 ((List.dropWhile_sublist _).subset hslash)
  · exact ⟨name, rfl, hname.noSlash, hname.ne_nil, hname.ne_dot⟩

theorem trimTail_folder {rest : List Char} (hslash : '/' ∉ rest) (hnil : rest ≠ [])
    (hdot : rest ≠ ['.']) : trimTail (f ++ rest).reverse = (f ++ rest).reverse := by
  rw [List.reverse_append]
  have hslash' : '/' ∉ rest.reverse := by simpa using hslash
  have hnil' : rest.reverse ≠ [] := by simpa using hnil
  have hdot' : rest.reverse ≠ ['.'] := by simpa [List.reverse_eq_iff] using hdot
  generalize rest.reverse = tail at hslash' hnil' hdot'
  match tail with
  | [] => exact absurd rfl hnil'
  | [c] => rw [trimTail.eq_def]; split <;> simp_all
  | c :: d :: tail => rw [trimTail.eq_def]; split <;> simp_all

theorem setExtension_folder (hf : Folder f) {rest : List Char} (hslash : '/' ∉ rest)
    (hnil : rest ≠ []) (hdot : rest ≠ ['.']) (extension : List Char) :
    setExtension (f ++ rest) extension =
      if rest = ['.', '.'] then f ++ rest else f ++ (stem rest ++ '.' :: extension) := by
  have hspan := span_folder hf hslash
  rw [List.span_eq_takeWhile_dropWhile] at hspan
  rw [setExtension, trimTail_folder hslash hnil hdot, (Prod.mk.inj hspan).1]
  simp [hnil, hdot]

theorem stem_subset (name : List Char) : stem name ⊆ name := by
  rw [stem]
  split
  · next dot c before hdrop =>
    intro x hx
    have hmem := List.mem_cons_of_mem dot (List.mem_reverse.1 hx)
    rw [← hdrop] at hmem
    exact List.mem_reverse.1 ((List.dropWhile_sublist _).subset hmem)
  · exact List.Subset.refl _

/-- A path with another extension is in the same folder, unless it has become a step to the parent
directory. -/
theorem withExtension_folder (hf : Folder f) {path : String} (hpath : InFolder f path) :
    (∃ dots, ∀ extension, withExtension path extension = dots) ∨
      ∀ extension : String, '/' ∉ extension.toList → extension.toList ≠ [] →
        '.' ∉ extension.toList → InFolder f (withExtension path extension) := by
  obtain ⟨name, hname, hpath⟩ := hpath
  obtain ⟨rest, hrest, hslash, hnil, hdot⟩ := dropExtension_folder hf hname
  by_cases hdots : rest = ['.', '.']
  · refine .inl ⟨String.ofList (f ++ rest), fun extension => ?_⟩
    rw [withExtension, hpath, hrest, setExtension_folder hf hslash hnil hdot, if_pos hdots]
  · refine .inr fun extension hext hsome hplain => ⟨stem rest ++ '.' :: extension.toList, ?_, ?_⟩
    · obtain ⟨c, ext, hc⟩ := List.exists_cons_of_ne_nil hsome
      have hmem : c ∈ extension.toList := by simp [hc]
      have hcdot : c ≠ '.' := fun heq => hplain (heq ▸ hmem)
      refine ⟨?_, by simp, fun heq => ?_, fun heq => ?_⟩
      · simp only [List.mem_append, List.mem_cons, not_or]
        exact ⟨fun hs => hslash (stem_subset rest hs), by decide, hext⟩
      · have : c ∈ ['.'] := heq ▸ (by simp [hmem])
        simp_all
      · have : c ∈ ['.', '.'] := heq ▸ (by simp [hmem])
        simp_all
    · rw [withExtension, hpath, hrest, setExtension_folder hf hslash hnil hdot, if_neg hdots,
        String.toList_ofList]

end FileName

section

variable {σ ε α β : Type} {x : ExceptT ε (StateM σ) α} {f : α → ExceptT ε (StateM σ) β} {s s' : σ}

theorem run_bind_of_ok {a : α} (h : x.run s = (.ok a, s')) : (x >>= f).run s = (f a).run s' := by
  have hrun : (x >>= f).run s = ExceptT.bindCont f (x.run s).1 (x.run s).2 := rfl
  rw [hrun, h]
  rfl

theorem run_lift {x : StateM σ α} {a : α} (h : x s = (a, s')) :
    (liftM x : ExceptT ε (StateM σ) α).run s = (.ok a, s') := by
  have hrun : (liftM x : ExceptT ε (StateM σ) α).run s = (.ok (x s).1, (x s).2) := rfl
  rw [hrun, h]

theorem run_bind_eq_ok {b : β} {s'' : σ} (h : (x >>= f).run s = (.ok b, s'')) :
    ∃ a s', x.run s = (.ok a, s') ∧ (f a).run s' = (.ok b, s'') := by
  rcases hx : x.run s with ⟨e | a, s'⟩
  · have hrun : (x >>= f).run s = ExceptT.bindCont f (x.run s).1 (x.run s).2 := rfl
    rw [hrun, hx] at h
    cases (Prod.mk.inj h).1
  · rw [run_bind_of_ok hx] at h
    exact ⟨a, s', rfl, h⟩

end

namespace Job

open FileName

def stageFile (path : String) (stage : Stage) : String :=
  FileName.withExtension path stage.extension

def NamesApart (path : String) : Prop := (path :: Stage.all.map (stageFile path)).Nodup

instance (path : String) : Decidable (NamesApart path) := inferInstanceAs (Decidable (List.Nodup _))

theorem mem_all (stage : Stage) : stage ∈ Stage.all := by
  cases stage <;> decide

theorem NamesApart.injective {path : String} (h : NamesApart path) :
    Function.Injective (stageFile path) := fun a b hab =>
  List.inj_on_of_nodup_map (List.nodup_cons.1 h).2 (mem_all a) (mem_all b) hab

theorem NamesApart.path_ne {path : String} (h : NamesApart path) (stage : Stage) :
    stageFile path stage ≠ path := fun heq =>
  (List.nodup_cons.1 h).1 (List.mem_map.2 ⟨stage, mem_all stage, heq⟩)

/-- Once its metadata could be written, the files of a job are in one folder. -/
theorem NamesApart.inFolder {path text : String} (h : NamesApart path) {t t' : FileTree}
    (hwrite : t.write path text = .ok t') :
    ∃ f, Folder f ∧ InFolder f path ∧ ∀ stage, InFolder f (stageFile path stage) := by
  obtain ⟨f, name, hf, hslash, hpath⟩ := exists_folder path.toList
  obtain ⟨place, hplace, -, hputs⟩ := FileTree.write_puts hwrite
  have hnil : name ≠ [] := FileTree.name_of_write hwrite hf hpath
  have hplain : Plain name := by
    refine ⟨hslash, hnil, ?_, ?_⟩
    · rintro rfl
      obtain ⟨before, hresolve⟩ := FileTree.resolve_folder hf
      obtain ⟨folder, -, hdirectory, rfl⟩ := hresolve hslash hnil hpath hplace
      exact hputs.before hdirectory
    · rintro rfl
      have hdots : dropExtension (f ++ ['.', '.']) = f ++ ['.', '.'] := by
        simp [dropExtension]
      refine h.path_ne .vertex (String.toList_injective ?_)
      rw [stageFile, withExtension, hpath, hdots,
        setExtension_folder hf hslash hnil (by decide), if_pos rfl, String.toList_ofList]
  have hin : InFolder f path := ⟨name, hplain, hpath⟩
  refine ⟨f, hf, hin, fun stage => ?_⟩
  rcases withExtension_folder hf hin with ⟨dots, hdots⟩ | hstages
  · have hsame : stageFile path .vertex = stageFile path .fragment := by
      rw [stageFile, stageFile, hdots, hdots]
    cases h.injective hsame
  · exact hstages stage.extension (by cases stage <;> decide) (by cases stage <;> decide)
      (by cases stage <;> decide)

section

variable {σ : Type} {files : FileSystem (StateM σ)} {path text : String} {s s' : σ}

theorem writeFile_ok (h : (writeFile files path text).run s = (.ok (), s')) :
    files.write path text s = (.ok (), s') := by
  rcases hwritten : files.write path text s with ⟨e | u, next⟩
  · rw [writeFile, run_bind_of_ok (run_lift hwritten)] at h
    cases (Prod.mk.inj h).1
  · rw [writeFile, run_bind_of_ok (run_lift hwritten)] at h
    obtain ⟨-, rfl⟩ := Prod.mk.inj h
    rfl

/-- The files of a job are there, and no others that would be taken for its stages. -/
structure Stored (job : Job) (files : FileSystem (StateM σ)) (path : String) (s : σ) : Prop where
  metadata : files.read path s = (.ok (job.metadata.pretty ++ "\n"), s)
  present : ∀ stage shader, job.shader? stage = some shader →
    files.exists? (stageFile path stage) s = (true, s) ∧
    files.read (stageFile path stage) s = (.ok (String.ofList shader.text), s)
  absent : ∀ stage, job.shader? stage = none → files.exists? (stageFile path stage) s = (false, s)

end

section

variable {f : List Char} {texts : List (String × String)} {before after : FileTree}

theorem writes_cons {x : String × String}
    (h : ((x :: texts).forM fun x => writeFile FileTree.system x.1 x.2).run before =
      (.ok (), after)) :
    ∃ next, before.write x.1 x.2 = .ok next ∧
      (texts.forM fun x => writeFile FileTree.system x.1 x.2).run next = (.ok (), after) := by
  obtain ⟨_, next, hfirst, hrest⟩ := run_bind_eq_ok h
  exact ⟨next, FileTree.system_write (writeFile_ok hfirst), hrest⟩

/-- A list of files that goes through is read back, and what else is in the folder stays. -/
theorem writes_kept (hf : Folder f) (hin : ∀ x ∈ texts, InFolder f x.1)
    (h : (texts.forM fun x => writeFile FileTree.system x.1 x.2).run before = (.ok (), after)) :
    (∀ path, InFolder f path → path ∉ texts.map Prod.fst →
      after.exists? path = before.exists? path ∧
      ∀ text, before.read path = .ok text → after.read path = .ok text) ∧
    ((texts.map Prod.fst).Nodup → ∀ x ∈ texts, after.read x.1 = .ok x.2) := by
  induction texts generalizing before with
  | nil =>
    obtain ⟨-, rfl⟩ := Prod.mk.inj h
    exact ⟨fun _ _ _ => ⟨rfl, fun _ hread => hread⟩, nofun⟩
  | cons x texts ih =>
    obtain ⟨next, hfirst, hrest⟩ := writes_cons h
    obtain ⟨hx, hin⟩ := List.forall_mem_cons.1 hin
    obtain ⟨hothers, hwritten⟩ := ih hin hrest
    refine ⟨fun path hpath hnot => ?_, fun hnodup => ?_⟩
    · obtain ⟨hne, hnot⟩ := not_or.1 (mt List.mem_cons.2 hnot)
      obtain ⟨hexists, hread⟩ := hothers path hpath hnot
      exact ⟨hexists.trans (FileTree.exists?_kept hf hx hpath hne hfirst),
        fun text htext => hread text (FileTree.read_kept hf hx hpath hne hfirst htext)⟩
    · obtain ⟨hnot, hnodup⟩ := List.nodup_cons.1 hnodup
      refine List.forall_mem_cons.2 ⟨?_, hwritten hnodup⟩
      exact (hothers x.1 hx hnot).2 _ (FileTree.read_written hfirst)

/-- What a job has written is there. A file of a stage that the job does not have must not have been
there before. -/
theorem stored_of_write {job : Job} (hordered : Ordered job.stages) {path : String}
    (hnames : NamesApart path)
    (hwrite : (job.write FileTree.system path).run before = (.ok (), after))
    (habsent : ∀ stage, job.shader? stage = none → before.exists? (stageFile path stage) = false) :
    job.Stored FileTree.system path after := by
  obtain ⟨next, hmetadata, -⟩ := writes_cons hwrite
  obtain ⟨f, hf, hpath, hstages⟩ := hnames.inFolder hmetadata
  have hfst : (job.texts path).map Prod.fst =
      path :: (job.stages.map Prod.fst).map (stageFile path) := by
    simp [texts, stageFile, Function.comp_def]
  have hin : ∀ x ∈ job.texts path, InFolder f x.1 := by
    refine List.forall_mem_cons.2 ⟨hpath, List.forall_mem_map.2 fun x _ => hstages x.1⟩
  have hnodup : ((job.texts path).map Prod.fst).Nodup := by
    rw [hfst, List.nodup_cons]
    refine ⟨fun hmem => ?_, List.Nodup.map hnames.injective ?_⟩
    · obtain ⟨stage, -, hstage⟩ := List.mem_map.1 hmem
      exact hnames.path_ne stage hstage
    · refine List.pairwise_map.2 (hordered.imp fun hlt heq => ?_)
      rw [heq] at hlt
      exact Nat.lt_irrefl _ hlt
  obtain ⟨hothers, hwritten⟩ := writes_kept hf hin hwrite
  have hread : ∀ x ∈ job.texts path, FileTree.system.exists? x.1 after = (true, after) ∧
      FileTree.system.read x.1 after = (.ok x.2, after) := by
    intro x hx
    have hx := hwritten hnodup x hx
    exact ⟨congrArg (Prod.mk · after) (FileTree.exists?_of_read hx), congrArg (Prod.mk · after) hx⟩
  refine ⟨(hread _ List.mem_cons_self).2, fun stage s hs => ?_, fun stage hs => ?_⟩
  · have hmem := (shader?_eq_some hordered).1 hs
    exact hread (stageFile path stage, _) (List.mem_cons_of_mem _ (List.mem_map.2 ⟨_, hmem, rfl⟩))
  · have hnot : stageFile path stage ∉ (job.texts path).map Prod.fst := by
      rw [hfst, List.mem_cons, not_or]
      refine ⟨hnames.path_ne stage, fun hmem => ?_⟩
      obtain ⟨st, hst, heq⟩ := List.mem_map.1 hmem
      obtain ⟨x, hx, rfl⟩ := List.mem_map.1 hst
      rw [← hnames.injective heq, (shader?_eq_some hordered).2 hx] at hs
      cases hs
    have hbefore := (hothers _ (hstages stage) hnot).1.trans (habsent stage hs)
    exact congrArg (Prod.mk · after) hbefore

end

end Job

end ShaderLift
