import Abnf.Proofs.Library.Loading

/-! A loader is told by the calls that were made to it. Where it looks for grammars are the directories that were added since
    they were last cleared (`addedPaths`), and what it remembers is what was loaded since the cache was last cleared
    (`Remembers`); the files may be others at every call. Neither depends on calls that failed. So what a load brings, and
    what it leaves behind, can be said of any history of calls (`load_afterAll`). -/

namespace Abnf.Loader

/-! ### Calls -/

/-- A call to a loader. A load sees the files as they are at the time. --/
inductive Call where
  | addPath (dir : Path)
  | clearPaths
  | clearCache
  | load (files : FileTree) (name : String)

namespace Call

/-- The directory that a call adds. --/
def dir? : Call → Option Path
  | addPath dir => some dir
  | _ => none

/-- Whether a call takes all directories away. --/
def clearsPaths : Call → Bool
  | clearPaths => true
  | _ => false

end Call

/-- The loader after a call. --/
def after (l : Loader) : Call → Loader
  | .addPath dir => l.addPath dir
  | .clearPaths => l.clearPaths
  | .clearCache => l.clearCache
  | .load files name => (l.load files name).2

/-- The loader after calls that were made one after the other. --/
def afterAll (l : Loader) (calls : List Call) : Loader := calls.foldl after l

/-- The directories that were added and not cleared since, the latest first. --/
def addedPaths (calls : List Call) : List Path :=
  (calls.reverse.takeWhile fun c => !c.clearsPaths).filterMap Call.dir?

/-- A name was loaded, and nothing has been forgotten since. --/
def Remembers (l : Loader) (calls : List Call) (name : String) (loaded : Loaded) : Prop :=
  ∃ before files after, calls = before ++ .load files name :: after ∧ .clearCache ∉ after ∧
    ((l.afterAll before).load files name).1 = .ok loaded

section
variable {l : Loader} {calls : List Call} {name : String} {loaded : Loaded}

theorem afterAll_concat (c : Call) : l.afterAll (calls ++ [c]) = (l.afterAll calls).after c := by
  rw [afterAll, List.foldl_append]
  rfl

theorem addedPaths_concat (c : Call) : addedPaths (calls ++ [c]) =
    if c.clearsPaths then [] else c.dir?.toList ++ addedPaths calls := by
  rw [addedPaths, List.reverse_concat, List.takeWhile_cons]
  cases c <;> rfl

theorem not_remembers_nil : ¬l.Remembers [] name loaded := by
  rintro ⟨before, files, after, h, -⟩
  exact List.append_ne_nil_of_right_ne_nil _ (List.cons_ne_nil _ _) h.symm

/-- A call is remembered if it loads the name, and it does not make others forgotten if it leaves the cache alone. --/
theorem remembers_concat (c : Call) : l.Remembers (calls ++ [c]) name loaded ↔
    (c ≠ .clearCache ∧ l.Remembers calls name loaded) ∨
      ∃ files, c = .load files name ∧ ((l.afterAll calls).load files name).1 = .ok loaded := by
  constructor
  · rintro ⟨before, files, after, h, hafter, hload⟩
    rcases List.eq_nil_or_concat after with rfl | ⟨after, d, rfl⟩
    · obtain ⟨rfl, hc⟩ := List.append_inj' h rfl
      cases hc
      exact Or.inr ⟨files, rfl, hload⟩
    · rw [List.concat_eq_append] at h hafter
      rw [← List.cons_append, ← List.append_assoc] at h
      obtain ⟨rfl, hc⟩ := List.append_inj' h rfl
      cases hc
      rw [List.mem_append, not_or] at hafter
      exact Or.inl ⟨fun hc => hafter.2 (List.mem_singleton.mpr hc.symm), before, files, after, rfl, hafter.1, hload⟩
  · rintro (⟨hc, before, files, after, rfl, hafter, hload⟩ | ⟨files, rfl, hload⟩)
    · refine ⟨before, files, after ++ [c], by simp, ?_, hload⟩
      rw [List.mem_append, not_or, List.mem_singleton]
      exact ⟨hafter, hc.symm⟩
    · exact ⟨calls, files, [], rfl, List.not_mem_nil, hload⟩

end

/-! ### Loading -/

section
variable {l : Loader} {files : FileTree} {name : String}

theorem load_of_cached {loaded : Loaded} (h : l.cached? name = some loaded) :
    l.load files name = (.ok loaded, l) := by
  rw [load, h]

theorem load_of_missing (h : l.cached? name = none) (hnone : ∀ p ∈ l.candidates name, files.isFile p = false) :
    l.load files name = (.error (.notFound name l.searchPaths), l) := by
  have hlookup : l.lookup files name = none := List.find?_eq_none.mpr fun p hp => by
    rw [hnone p hp]
    exact Bool.false_ne_true
  rw [load, h]
  dsimp only
  rw [hlookup]

/-- A name that is not remembered is read from the first of its candidates that is a file. --/
theorem load_of_first (h : l.cached? name = none) {before after : List Path} {p : Path}
    (hp : l.candidates name = before ++ p :: after) (hbefore : ∀ q ∈ before, files.isFile q = false)
    (hfile : files.isFile p = true) : l.load files name =
      match Library.loadFile files p with
      | .error e => (.error e, l)
      | .ok g => (.ok (l.remember name g).1, (l.remember name g).2) := by
  have hlookup : l.lookup files name = some p := by
    refine List.find?_eq_some_iff_append.mpr ⟨hfile, before, after, hp, fun q hq => ?_⟩
    rw [hbefore q hq]
    rfl
  rw [load, h]
  dsimp only
  rewrite [hlookup]
  rfl

theorem cached?_remember (g : Grammar) (other : String) :
    (l.remember name g).2.cached? other = if other = name then some (l.remember name g).1 else l.cached? other := by
  rw [cached?, remember, cached?]
  dsimp only
  rw [List.lookup_cons]
  by_cases h : other = name
  · simp [h]
  · rw [if_neg h, beq_eq_false_iff_ne.mpr h]

/-- A load leaves a loader as it is, or makes it remember one more name. --/
theorem load_cases (l : Loader) (files : FileTree) (name : String) :
    (∃ loaded, l.cached? name = some loaded ∧ l.load files name = (.ok loaded, l)) ∨
    (∃ e, l.load files name = (.error e, l)) ∨
    ∃ g, l.cached? name = none ∧ l.load files name = (.ok (l.remember name g).1, (l.remember name g).2) := by
  unfold load
  split
  · exact Or.inl ⟨_, ‹_›, rfl⟩
  · split
    · exact Or.inr (Or.inl ⟨_, rfl⟩)
    · split
      · exact Or.inr (Or.inl ⟨_, rfl⟩)
      · exact Or.inr (Or.inr ⟨_, ‹_›, rfl⟩)

theorem paths_load : (l.load files name).2.appPaths = l.appPaths ∧ (l.load files name).2.systemPaths = l.systemPaths := by
  rcases load_cases l files name with ⟨_, -, h⟩ | ⟨_, h⟩ | ⟨_, -, h⟩ <;> rw [h] <;> exact ⟨rfl, rfl⟩

/-- After a load the names are known that were so before, and the one that was loaded. --/
theorem cached?_load {other : String} {loaded : Loaded} : (l.load files name).2.cached? other = some loaded ↔
    l.cached? other = some loaded ∨ (name = other ∧ (l.load files name).1 = .ok loaded) := by
  rcases load_cases l files name with ⟨known, hknown, h⟩ | ⟨e, h⟩ | ⟨g, hnone, h⟩ <;> rw [h]
  · refine (or_iff_left_of_imp ?_).symm
    rintro ⟨rfl, hok⟩
    cases hok
    exact hknown
  · exact (or_iff_left fun h => nomatch h.2).symm
  · rw [cached?_remember]
    by_cases hother : other = name
    · subst hother
      simp [hnone]
    · simp [hother, Ne.symm hother]

end

/-! ### Histories -/

section
variable (paths : Option String) (calls : List Call)

/-- The directories that are searched after some calls. --/
theorem paths_afterAll : ((ofPathList paths).afterAll calls).appPaths = addedPaths calls ∧
    ((ofPathList paths).afterAll calls).systemPaths = (ofPathList paths).systemPaths := by
  induction calls using List.reverseRecOn with
  | nil => exact ⟨rfl, rfl⟩
  | append_singleton calls c ih =>
    obtain ⟨happ, hsystem⟩ := ih
    rw [afterAll_concat, addedPaths_concat, ← happ, ← hsystem]
    cases c with
    | addPath | clearPaths | clearCache => exact ⟨rfl, rfl⟩
    | load files name => exact paths_load

/-- What is remembered after some calls. --/
theorem cached?_afterAll (name : String) (loaded : Loaded) :
    ((ofPathList paths).afterAll calls).cached? name = some loaded ↔ (ofPathList paths).Remembers calls name loaded := by
  induction calls using List.reverseRecOn with
  | nil => exact iff_of_false nofun not_remembers_nil
  | append_singleton calls c ih =>
    rw [afterAll_concat, remembers_concat, ← ih]
    cases c with
    | addPath | clearPaths => simp [after, addPath, clearPaths, cached?]
    | clearCache => simp [after, clearCache, cached?]
    | load files name' =>
      rw [after, cached?_load]
      refine or_congr (and_iff_right nofun).symm ⟨?_, ?_⟩
      · rintro ⟨rfl, h⟩
        exact ⟨files, rfl, h⟩
      · rintro ⟨_, hc, h⟩
        cases hc
        exact ⟨rfl, h⟩

end

/-- What a load brings after any calls, whatever files there were at each of them. A name that was loaded since the cache was
    last cleared is that grammar still. Any other name is looked for in the directories that were added and not cleared,
    the latest first, and then in those of the system, unless it is a path of its own, and it is read from the first
    place where there is a file. Only a success is remembered, and only under this name. --/
theorem load_afterAll (paths : Option String) (calls : List Call) (files : FileTree) (name : String) :
    let l := (ofPathList paths).afterAll calls
    let dirs := addedPaths calls ++ (ofPathList paths).systemPaths
    let candidates := if Path.isAbsolute name then [name] else dirs.map fun dir => Path.join dir name
    (∀ loaded, (ofPathList paths).Remembers calls name loaded → l.load files name = (.ok loaded, l)) ∧
    ((∀ loaded, ¬(ofPathList paths).Remembers calls name loaded) →
      ((∀ p ∈ candidates, files.isFile p = false) → l.load files name = (.error (.notFound name dirs), l)) ∧
      ∀ before p after, candidates = before ++ p :: after → (∀ q ∈ before, files.isFile q = false) →
        files.isFile p = true →
        (∀ e, Library.loadFile files p = .error e → l.load files name = (.error e, l)) ∧
        ∀ g, Library.loadFile files p = .ok g → ∃ loaded l', l.load files name = (.ok loaded, l') ∧
          loaded.grammar = g ∧ l'.appPaths = l.appPaths ∧ l'.systemPaths = l.systemPaths ∧
          ∀ other, l'.cached? other = if other = name then some loaded else l.cached? other) := by
  intro l dirs candidates
  obtain ⟨happ, hsystem⟩ := paths_afterAll paths calls
  have hdirs : l.searchPaths = dirs := by rw [searchPaths, happ, hsystem]
  have hcandidates : l.candidates name = candidates := by rw [Loader.candidates, hdirs]
  constructor
  · exact fun loaded h => load_of_cached ((cached?_afterAll paths calls name loaded).mpr h)
  · intro hforgotten
    have hnone : l.cached? name = none := Option.eq_none_iff_forall_ne_some.mpr fun loaded h =>
      hforgotten loaded ((cached?_afterAll paths calls name loaded).mp h)
    refine ⟨fun hmissing => ?_, fun before p after hp hbefore hfile => ?_⟩
    · rw [load_of_missing hnone (hcandidates ▸ hmissing), hdirs]
    · have hload := load_of_first hnone (hcandidates.trans hp) hbefore hfile
      refine ⟨fun e he => by rw [hload, he], fun g hg => ?_⟩
      rw [hg] at hload
      exact ⟨_, _, hload, rfl, rfl, rfl, cached?_remember g⟩

/-- A grammar that was loaded from `Library.shelf` is the same where there is no file any more, whatever directories have come
    and gone; after the cache has been cleared it is not found, in the one directory that is left. --/
theorem load_afterAll_shelf :
    let calls : List Call := [.load Library.shelf "/saved", .addPath "a", .clearPaths, .addPath "b"]
    let l : Loader := (ofPathList none).afterAll calls
    let files : FileTree := FileTree.empty []
    (∃ loaded, (ofPathList none).Remembers calls "/saved" loaded ∧ l.load files "/saved" = (.ok loaded, l)) ∧
      (l.clearCache.load files "/saved").1 = .error (.notFound "/saved" ["b"]) := by
  intro calls l files
  have habsolute : Path.isAbsolute "/saved" = true := by decide +kernel
  constructor
  · have hmagic : Binary.hasMagic Binary.recursive.bytes = true := rfl
    obtain ⟨g, hcontent⟩ : ∃ g, Library.grammarOfContent "/saved" Binary.recursive.bytes = .ok g := by
      rw [Library.grammarOfContent, if_pos hmagic, Binary.decode_of_valid Binary.valid_recursive]
      exact ⟨_, rfl⟩
    have hg := Library.loadFile_eq_ok.mpr ⟨_, Library.read_shelf, hcontent⟩
    have hfile : Library.shelf.isFile "/saved" = true := by rw [FileTree.isFile, Library.read_shelf]
    obtain ⟨-, hfresh⟩ := load_afterAll none [] Library.shelf "/saved"
    obtain ⟨-, hfirst⟩ := hfresh fun _ => not_remembers_nil
    obtain ⟨loaded, l', hload, -⟩ :=
      (hfirst [] "/saved" [] (if_pos habsolute) (List.forall_mem_nil _) hfile).2 g hg
    have hremembers : (ofPathList none).Remembers calls "/saved" loaded :=
      ⟨[], Library.shelf, [.addPath "a", .clearPaths, .addPath "b"], rfl, by simp, congrArg Prod.fst hload⟩
    exact ⟨loaded, hremembers, (load_afterAll none calls files "/saved").1 loaded hremembers⟩
  · have hcleared : l.clearCache = (ofPathList none).afterAll (calls ++ [.clearCache]) := by
      rw [afterAll_concat]
      rfl
    have hmissing : files.isFile "/saved" = false := by decide +kernel
    obtain ⟨-, hfresh⟩ := load_afterAll none (calls ++ [.clearCache]) files "/saved"
    have hforgotten : ∀ loaded, ¬(ofPathList none).Remembers (calls ++ [.clearCache]) "/saved" loaded := by
      intro loaded h
      rcases (remembers_concat _).mp h with ⟨hne, -⟩ | ⟨_, hc, -⟩
      · exact hne rfl
      · cases hc
    rw [hcleared, (hfresh hforgotten).1 ?_]
    · rfl
    · rw [if_pos habsolute]
      exact List.forall_mem_singleton.mpr hmissing

end Abnf.Loader
