import Abnf.Library.Loader
import Abnf.Proofs.Binary.Acceptance
import Abnf.Proofs.Binary.Decode
import Abnf.Proofs.Compile.Completeness

/-! What a loader hands out can be matched safely. A file holds a grammar as it was saved, which is complete because
    reading it checks that, or a document, which is compiled over the core rules and so has nothing to lack. Either way
    the grammar is well-formed, complete and optimized (`Grammar.WellFormed.matchable`), and so are all grammars that a
    loader remembers (`Loader.Safe.load`). -/

namespace Abnf

namespace Grammar

/-- A node that the rules of a grammar are made of. --/
inductive Reaches (g : Grammar) : NodeId → Prop where
  | root {r : RuleId} {i : NodeId} (h : g.root? r = some i) : Reaches g i
  | part {i c : NodeId} {n : Node} (h : Reaches g i) (hn : g.nodes[i]? = some n) (hc : c ∈ n.children) : Reaches g c

/-- A grammar that can be matched safely. --/
structure Matchable (g : Grammar) : Prop where
  complete : g.isComplete = true
  /-- It has its first sets. --/
  optimized : g.firstSets = some g.computeFirstSets
  nodes : ∀ i, g.Reaches i → i < g.nodes.size
  rules : ∀ i n, g.Reaches i → g.nodes[i]? = some n → ∀ r ∈ n.rules, r < g.slots.size
  /-- No match fails for want of a rule. --/
  runs : ∀ input observed r start m, g.root? r ≠ none → Match.run ⟨g, input, observed⟩ r start ≠ .error (.missing m)

variable {g : Grammar}

/-- What is reached is there: roots are, and parts come before what they are parts of. --/
theorem Reaches.lt_size (hw : g.WellFormed) {i : NodeId} (h : g.Reaches i) : i < g.nodes.size := by
  induction h with
  | root h => exact hw.roots _ _ h
  | part _ hn hc ih => exact Nat.lt_trans (hw.parts _ _ hn _ hc) ih

theorem WellFormed.matchable (hw : g.WellFormed) (hc : g.isComplete = true) (ho : g.isOptimized = true) :
    g.Matchable where
  complete := hc
  optimized := by
    obtain ⟨sets, hsets⟩ := Option.isSome_iff_exists.mp ho
    rw [hsets, hw.sets sets hsets]
  nodes _ h := h.lt_size hw
  rules _ n _ hn := hw.referred n (Array.mem_of_getElem? hn)
  runs input observed r start m hroot := by
    have hr : r < g.slots.size := by
      by_contra hge
      exact hroot (root?_eq_none_of_le (Nat.le_of_not_lt hge))
    exact Match.run_ne_missing hw hc hr m

theorem isComplete_coreRules : coreRules.isComplete = true := by decide +kernel

end Grammar

/-! ### Files -/

theorem Binary.matchable_decode {bytes : List UInt8} {g : Grammar} (h : decode bytes = .ok g) : g.Matchable := by
  obtain ⟨hw, hc⟩ := wellFormed_decode h
  refine hw.matchable hc ?_
  obtain ⟨m, -, h⟩ := bind_eq_ok.mp h
  unfold Image.decode at h
  split at h
  · cases h
    rfl
  · cases h

theorem matchable_compile {source : String} {o : CompileOptions} {c : Compilation} (hc : compile source o = .ok c)
    (hstrict : o.allowIncomplete = false) (hb : ∀ base, o.base = some base → base.WellFormed)
    (hcomplete : ∀ base, o.base = some base → base.isComplete = true) : c.grammar.Matchable := by
  refine (wellFormed_compile hc hb).matchable (isComplete_compile hc hstrict hb hcomplete) ?_
  rw [grammar_of_compile hc]
  rfl

namespace Library

theorem matchable_grammarOfContent {p : Path} {content : List UInt8} {g : Grammar}
    (h : grammarOfContent p content = .ok g) : g.Matchable := by
  unfold grammarOfContent at h
  split at h
  · cases hd : Binary.decode content with
    | ok g' =>
      rw [hd] at h
      cases h
      exact Binary.matchable_decode hd
    | error e =>
      rw [hd] at h
      cases h
  · split at h
    · rename_i source _
      unfold compileText at h
      cases hc : compile source { name := grammarName p, base := some coreRules } with
      | ok c =>
        rw [hc] at h
        cases h
        have hbase : ∀ base, some coreRules = some base → base.WellFormed ∧ base.isComplete = true := by
          intro base hbase
          obtain rfl : coreRules = base := Option.some.inj hbase
          exact ⟨Grammar.wellFormed_coreRules, Grammar.isComplete_coreRules⟩
        exact matchable_compile hc rfl (fun base h => (hbase base h).1) fun base h => (hbase base h).2
      | error ds =>
        rw [hc] at h
        cases h
    · cases h

theorem loadFile_eq_ok {files : FileTree} {p : Path} {g : Grammar} :
    loadFile files p = .ok g ↔ ∃ content, files.read p = .ok content ∧ grammarOfContent p content = .ok g := by
  unfold loadFile
  cases files.read p <;> simp

/-- Whatever a file holds, a grammar that is loaded from it can be matched safely. --/
theorem matchable_loadFile {files : FileTree} {p : Path} {g : Grammar} (h : loadFile files p = .ok g) : g.Matchable := by
  obtain ⟨content, -, hcontent⟩ := loadFile_eq_ok.mp h
  exact matchable_grammarOfContent hcontent

/-- A saved grammar, and the document `r = 1*DIGIT`. --/
def shelf : FileTree where
  current := []
  entries := [(["saved"], .file Binary.recursive.bytes),
    (["text"], .file [0x72, 0x20, 0x3D, 0x20, 0x31, 0x2A, 0x44, 0x49, 0x47, 0x49, 0x54, 0x0A]), ([], .directory)]

theorem read_shelf : shelf.read "/saved" = .ok Binary.recursive.bytes := by
  have hpath : Path.fault? "/saved" = none ∧ Path.steps "/saved" = ["saved"] ∧ Path.isAbsolute "/saved" = true := by
    decide +kernel
  have hlocate : shelf.locate "/saved" = .ok ["saved"] := by
    rw [FileTree.locate, FileTree.follow, hpath.1, hpath.2.1, hpath.2.2]
    rfl
  rw [FileTree.read, hlocate]
  rfl

theorem matchable_loadFile_shelf :
    (∃ g, loadFile shelf "/saved" = .ok g ∧ g.Matchable) ∧ ∃ g, loadFile shelf "/text" = .ok g ∧ g.Matchable := by
  constructor
  · have hmagic : Binary.hasMagic Binary.recursive.bytes = true := rfl
    obtain ⟨g, hg⟩ : ∃ g, grammarOfContent "/saved" Binary.recursive.bytes = .ok g := by
      rw [grammarOfContent, if_pos hmagic, Binary.decode_of_valid Binary.valid_recursive]
      exact ⟨_, rfl⟩
    have hload := loadFile_eq_ok.mpr ⟨_, read_shelf, hg⟩
    exact ⟨g, hload, matchable_loadFile hload⟩
  · have hok : (loadFile shelf "/text").isOk = true := by decide +kernel
    cases hg : loadFile shelf "/text" with
    | ok g => exact ⟨g, rfl, matchable_loadFile hg⟩
    | error e =>
      rw [hg] at hok
      cases hok

end Library

/-! ### Loaders -/

namespace Loader

/-- All that a loader remembers can be matched safely. --/
def Safe (l : Loader) : Prop := ∀ x ∈ l.cache, x.2.grammar.Matchable

theorem Safe.of_cached {l : Loader} (hl : l.Safe) {name : String} {loaded : Loaded} (h : l.cached? name = some loaded) :
    loaded.grammar.Matchable := by
  obtain ⟨_, _, hcache, -⟩ := List.lookup_eq_some_iff.mp h
  exact hl (_, loaded) (hcache ▸ List.mem_append_right _ List.mem_cons_self)

/-- A loader stays safe whatever it is asked for, and what it hands out can be matched safely. --/
theorem Safe.load {l : Loader} (hl : l.Safe) (files : FileTree) (name : String) :
    (l.load files name).2.Safe ∧ ∀ loaded, (l.load files name).1 = .ok loaded → loaded.grammar.Matchable := by
  unfold Loader.load
  split
  · rename_i loaded hcached
    refine ⟨hl, ?_⟩
    rintro _ ⟨⟩
    exact hl.of_cached hcached
  · split
    · exact ⟨hl, nofun⟩
    · split
      · exact ⟨hl, nofun⟩
      · rename_i g hg
        obtain ⟨content, -, hcontent⟩ := Library.loadFile_eq_ok.mp hg
        have hsafe := Library.matchable_grammarOfContent hcontent
        refine ⟨List.forall_mem_cons.mpr ⟨hsafe, hl⟩, ?_⟩
        rintro _ ⟨⟩
        exact hsafe

/-- Whatever a loader has been asked for, and however the files have changed meanwhile, it is safe. --/
theorem Safe.loads : ∀ (requests : List (FileTree × String)) {l : Loader}, l.Safe →
    (requests.foldl (fun l q => (l.load q.1 q.2).2) l).Safe
  | [], _, hl => hl
  | q :: requests, _, hl => Safe.loads requests (hl.load q.1 q.2).1

theorem safe_ofPathList (paths : Option String) : (ofPathList paths).Safe := nofun

end Loader
end Abnf
