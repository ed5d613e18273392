import Abnf.Compile
import Abnf.Proofs.Compile.Definitions
import Abnf.Proofs.Compile.Validity
import Mathlib.Data.List.Induction

/-! The compiler accepts just the documents that it should (`compile_iff`). Each part of a body is checked when its node is
    made (`notes_expr`), each definition against those before it (`taken_definition`), alternatives that wait for the base
    against all definitions, and references at the end. -/

namespace Abnf

/-! ### Parts and definitions -/

/-- What is checked when the node of an expression is made. --/
def Expr.Fair : Expr → Prop
  | .prose _ => False
  | .num w => NumVal.Valid w.text
  | .repetition _ (some r) (some _) => r.Valid
  | _ => True

namespace Definition

/-- Each definition satisfies a condition on those before it. --/
def InOrder (P : List Definition → Definition → Prop) (ds : List Definition) : Prop :=
  ∀ before d after, ds = before ++ d :: after → P before d

theorem inOrder_snoc {P : List Definition → Definition → Prop} {ds : List Definition} {d : Definition} :
    InOrder P (ds ++ [d]) ↔ InOrder P ds ∧ P ds d := by
  constructor
  · refine fun h => ⟨fun before e after hds => h before e (after ++ [d]) (by simp [hds]), h ds d [] rfl⟩
  · rintro ⟨h, hd⟩ before e after hds
    rcases List.eq_nil_or_concat after with rfl | ⟨after, x, rfl⟩
    · obtain ⟨rfl, hlast⟩ := List.append_inj' hds rfl
      cases hlast
      exact hd
    · rw [List.concat_eq_append, ← List.cons_append, ← List.append_assoc] at hds
      exact h before e after (List.append_inj_left' hds rfl)

/-- What is checked of a definition when its turn comes. --/
structure Fits (o : CompileOptions) (before : List Definition) (d : Definition) : Prop where
  fair : ∀ incremental name, ∀ body ∈ d.bodyOf incremental name, ∀ e ∈ body.parts, e.Fair
  follows : ∀ name, (d.bodyOf true name).isSome → bodiesOf false name before ≠ [] ∨ o.baseDefines name = true
  once : ∀ name, (d.bodyOf false name).isSome → bodiesOf false name before = []
  overrides : ∀ name, (d.bodyOf false name).isSome → o.rejectBaseOverrides = true → o.baseDefines name = false

theorem bodyOf_whole (w : Word) (sign : DefinedAs) (body : Expr) (incremental : Bool) (name : String) :
    bodyOf incremental name ⟨some w, some sign, some body⟩ =
      if sameName w.text name ∧ sign.incremental = incremental then some body else none := rfl

theorem bodiesOf_sameName {a b : String} (h : sameName a b = true) (incremental : Bool) (ds : List Definition) :
    bodiesOf incremental a ds = bodiesOf incremental b ds := by
  rw [sameName_iff] at h
  unfold bodiesOf bodyOf sameName
  rw [h]

end Definition

theorem CompileOptions.baseDefines_sameName (o : CompileOptions) {a b : String} (h : sameName a b = true) :
    o.baseDefines a = o.baseDefines b := by
  unfold baseDefines
  simp only [Grammar.defines_sameName h]

namespace Assembly

open State Definition

/-! ### Expressions -/

/-- What becomes of a state in which the nodes of some parts are made: it is clean if all of them are fair, and what they
    refer to is noted. --/
structure Notes (ps : List Expr) (s s' : State) : Prop where
  clean : s'.Clean ↔ s.Clean ∧ ∀ e ∈ ps, e.Fair
  grows : s.grammar.Grows s'.grammar
  definitions : s'.definitions = s.definitions
  extensions : s'.extensions = s.extensions
  references (name : String) : (lookup s'.references name).isSome = true ↔
    (lookup s.references name).isSome = true ∨ ∃ w, .ref w ∈ ps ∧ sameName w.text name = true
  declared (name : String) : (s'.grammar.find? name).isSome = true ↔
    (s.grammar.find? name).isSome = true ∨ ∃ w, .ref w ∈ ps ∧ sameName w.text name = true

section
variable {ps qs : List Expr} {s s' s'' : State}

theorem Notes.refl (s : State) : Notes [] s s where
  clean := by simp
  grows := .refl _
  definitions := rfl
  extensions := rfl
  references := by simp
  declared := by simp

theorem Notes.trans (h : Notes ps s s') (h' : Notes qs s' s'') : Notes (ps ++ qs) s s'' where
  clean := by rw [h'.clean, h.clean, List.forall_mem_append, and_assoc]
  grows := h.grows.trans h'.grows
  definitions := h'.definitions.trans h.definitions
  extensions := h'.extensions.trans h.extensions
  references name := by
    rw [h'.references, h.references, or_assoc, ← exists_or]
    simp only [List.mem_append, or_and_right]
  declared name := by
    rw [h'.declared, h.declared, or_assoc, ← exists_or]
    simp only [List.mem_append, or_and_right]

theorem notes_add (s : State) (n : Node) : Notes [] s (s.add n).2 where
  clean := by simp [State.Clean, State.add]
  grows := Grammar.grows_addNode _ _
  definitions := rfl
  extensions := rfl
  references := by simp [State.add]
  declared name := by
    rw [show (s.add n).2.grammar.find? name = s.grammar.find? name from rfl]
    simp

/-- Parts of which nothing is checked. --/
theorem Notes.fair (h : Notes [] s s') {e : Expr} (hfair : e.Fair) (hother : ∀ w, e ≠ .ref w) : Notes [e] s s' where
  clean := by simp [h.clean, hfair]
  grows := h.grows
  definitions := h.definitions
  extensions := h.extensions
  references name := by
    rw [h.references]
    simp [(hother _).symm]
  declared name := by
    rw [h.declared]
    simp [(hother _).symm]

/-- Parts that are told of. --/
theorem Notes.foul (h : Notes [] s s') {e : Expr} {d : Diagnostic} (hd : d.isError = true) (hfair : ¬e.Fair)
    (hother : ∀ w, e ≠ .ref w) : Notes [e] s (s'.tell d) where
  clean := iff_of_false (not_clean_tell s' hd) fun h => hfair (List.forall_mem_singleton.mp h.2)
  grows := h.grows
  definitions := h.definitions
  extensions := h.extensions
  references name := by
    change (lookup s'.references name).isSome = true ↔ _
    rw [h.references]
    simp [(hother _).symm]
  declared name := by
    change (s'.grammar.find? name).isSome = true ↔ _
    rw [h.declared]
    simp [(hother _).symm]

theorem Notes.add (h : Notes ps s s') (n : Node) : Notes ps s (s'.add n).2 := by
  have hall := h.trans (notes_add s' n)
  rwa [List.append_nil] at hall

theorem Notes.remember (h : Notes ps s s') (blanks : Option NodeId) : Notes ps s { s' with blanks } := { h with }

theorem notes_reference (w : Word) (s : State) : Notes [.ref w] s (reference w s).2 where
  clean := by simp [State.Clean, reference, Expr.Fair]
  grows := Grammar.grows_addRef s.grammar w.text
  definitions := rfl
  extensions := rfl
  references name := by
    have hknown : (lookup (reference w s).2.references name).isSome =
        ((lookup s.references name).isSome || sameName w.text name) := by
      rw [reference]
      dsimp only
      split
      · rename_i hold
        cases hn : sameName w.text name with
        | false => rw [Bool.or_false]
        | true => rw [Bool.or_true, ← lookup_sameName hn, hold]
      · exact isSome_lookup_append _ _ _
    rw [hknown, Bool.or_eq_true]
    simp
  declared name := by
    change ((s.grammar.declare w.text).2.find? name).isSome = true ↔ _
    rw [Grammar.isSome_find?_declare, Bool.or_eq_true]
    simp

theorem notes_numeric (w : Word) (s : State) : Notes [.num w] s (numeric w s).2 := by
  unfold numeric
  split
  · rename_i n hn
    exact (notes_add s n).fair (NumVal.node_iff.mp ⟨n, hn⟩) nofun
  · rename_i kind hkind
    refine ((Notes.refl s).foul (e := .num w) rfl (fun hvalid : NumVal.Valid w.text => ?_) nofun).add .empty
    obtain ⟨n, hn⟩ := NumVal.node_iff.mpr hvalid
    cases hn.symm.trans hkind

theorem notes_blanks (s : State) : Notes [] s (blanks s).2 := by
  unfold blanks
  split
  · exact .refl s
  · exact ((((notes_add s _).add _).add _).add _).remember _

theorem notes_listOf (i : NodeId) (b : Repeat.Bounds) (s : State) : Notes [] s (listOf i b s).2 := by
  unfold listOf
  split
  · exact notes_add s .empty
  · dsimp only
    split
    · exact ((((((notes_blanks s).add _).add _).add _).add _).add _).add _
    · exact (((((notes_blanks s).add _).add _).add _).add _).add _

theorem notes_repeated (span : Span) (r : Repeat) (e : Expr) (i : NodeId) (s : State) :
    Notes [.repetition span (some r) (some e)] s (repeated i (some r) s).2 := by
  unfold repeated
  dsimp only
  cases hb : r.bounds with
  | error d =>
    refine (Notes.refl s).foul (Repeat.isError_of_bounds hb) (fun hvalid : r.Valid => ?_) nofun
    obtain ⟨b, hok⟩ := Repeat.bounds_iff.mpr hvalid
    cases hok.symm.trans hb
  | ok b =>
    have hvalid : r.Valid := Repeat.bounds_iff.mp ⟨b, hb⟩
    dsimp only
    split
    · exact (notes_listOf i b s).fair hvalid nofun
    · split
      · exact (Notes.refl s).fair hvalid nofun
      · exact (notes_add s _).fair hvalid nofun

/-- A node around several nodes; where there is only one, it stands for itself. --/
theorem notes_collapse {out : List NodeId × State} {node : List NodeId → Node} {e : Expr} (h : Notes ps s out.2)
    (hfair : e.Fair) (hother : ∀ w, e ≠ .ref w) : Notes (ps ++ [e]) s (match out with
      | ([i], s) => (i, s)
      | (is, s) => s.add (node is)).2 := by
  split
  · exact h.trans ((Notes.refl _).fair hfair hother)
  · exact h.trans ((notes_add _ _).fair hfair hother)

mutual

/-- All parts of an expression are checked. --/
theorem notes_expr : ∀ (e : Expr) (s : State), Notes e.parts s (expr e s).2
  | .alternation _ es, s => by
    rw [expr, Expr.parts]
    exact notes_collapse (notes_exprs es s) trivial nofun
  | .concatenation _ es, s => by
    rw [expr, Expr.parts]
    exact notes_collapse (notes_exprs es s) trivial nofun
  | .repetition _ _ none, s => (notes_add s .empty).fair (by simp [Expr.Fair]) nofun
  | .repetition _ none (some e), s => (notes_expr e s).trans ((Notes.refl _).fair trivial nofun)
  | .repetition span (some r) (some e), s => (notes_expr e s).trans (notes_repeated span r e _ _)
  | .ref w, s => notes_reference w s
  | .str _, s => (notes_add s _).fair trivial nofun
  | .num w, s => notes_numeric w s
  | .prose w, s => ((Notes.refl s).foul (e := .prose w) rfl id nofun).add .empty
  | .group _ none, s => (notes_add s .empty).fair trivial nofun
  | .group _ (some e), s => by
    have h := notes_expr e s
    rw [expr, Expr.parts]
    dsimp only
    split
    · exact h.trans ((notes_add _ _).fair trivial nofun)
    · exact h.trans ((Notes.refl _).fair trivial nofun)
  | .optional _ none, s => ((notes_add s .empty).add _).fair trivial nofun
  | .optional _ (some e), s => (notes_expr e s).trans ((notes_add _ _).fair trivial nofun)

theorem notes_exprs : ∀ (es : List Expr) (s : State), Notes (Expr.partsAll es) s (exprs es s).2
  | [], s => .refl s
  | e :: es, s => (notes_expr e s).trans (notes_exprs es _)

end

end

/-! ### Definitions -/

section
variable {o : CompileOptions} {ds : List Definition} {d : Definition} {s s' : State} {w : Word} {body : Expr} {i : NodeId}

theorem contains_snoc {e : Expr} : Contains (ds ++ [d]) e ↔
    Contains ds e ∨ ∃ incremental name, ∃ body ∈ d.bodyOf incremental name, e ∈ body.parts := by
  simp only [Contains, bodiesOf_append, List.mem_append, Option.mem_toList, Option.mem_def, or_and_right, exists_or]

/-- The parts of a definition that has a body are those of the body. --/
theorem contains_whole {sign : DefinedAs} {e : Expr} : Contains (ds ++ [⟨some w, some sign, some body⟩]) e ↔
    Contains ds e ∨ e ∈ body.parts := by
  rw [contains_snoc]
  refine or_congr_right ⟨?_, fun he => ⟨sign.incremental, w.text, body, ?_, he⟩⟩
  · rintro ⟨incremental, name, other, hother, he⟩
    rw [bodyOf_whole] at hother
    split at hother
    · cases hother
      exact he
    · cases hother
  · rw [bodyOf_whole, if_pos ⟨sameName_refl _, rfl⟩]
    rfl

/-- What is checked of a definition that has a body. --/
theorem fits_whole {sign : DefinedAs} : Fits o ds ⟨some w, some sign, some body⟩ ↔ (∀ e ∈ body.parts, e.Fair) ∧
    if sign.incremental then bodiesOf false w.text ds ≠ [] ∨ o.baseDefines w.text = true
    else bodiesOf false w.text ds = [] ∧ (o.rejectBaseOverrides = true → o.baseDefines w.text = false) := by
  have hbody : ∀ incremental name, (bodyOf incremental name ⟨some w, some sign, some body⟩).isSome →
      sameName w.text name = true ∧ sign.incremental = incremental := by
    intro incremental name h
    rw [bodyOf_whole] at h
    split at h
    · assumption
    · cases h
  have hown : bodyOf sign.incremental w.text ⟨some w, some sign, some body⟩ = some body :=
    if_pos ⟨sameName_refl _, rfl⟩
  have hsome : (bodyOf sign.incremental w.text ⟨some w, some sign, some body⟩).isSome := Option.isSome_of_eq_some hown
  constructor
  · intro h
    refine ⟨h.fair sign.incremental w.text body hown, ?_⟩
    cases hsign : sign.incremental <;> rw [hsign] at hsome
    · exact ⟨h.once w.text hsome, h.overrides w.text hsome⟩
    · exact h.follows w.text hsome
  · rintro ⟨hfair, h⟩
    refine ⟨fun incremental name other hother => ?_, fun name hname => ?_, fun name hname => ?_, fun name hname => ?_⟩
    · rw [bodyOf_whole] at hother
      split at hother
      · cases hother
        exact hfair
      · cases hother
    all_goals
      obtain ⟨hn, hsign⟩ := hbody _ name hname
      rw [hsign, bodiesOf_sameName hn, o.baseDefines_sameName hn] at h
    · exact h
    · exact h.1
    · exact h.2

/-- What is known after some definitions, each of which has been checked against those before it. --/
structure Taken (o : CompileOptions) (ds : List Definition) (s : State) : Prop where
  drawn : Drawn .empty ds s
  clean : s.Clean ↔ InOrder (Fits o) ds
  based : ∀ x ∈ s.extensions, o.baseDefines x.name.text = true
  /-- Alternatives wait unless each of them follows a definition of its name. --/
  waiting : s.Clean → ∀ name, (∀ x ∈ s.extensions, sameName x.name.text name = false) ↔
    InOrder (fun before d => (d.bodyOf true name).isSome → bodiesOf false name before ≠ []) ds
  references (name : String) : (lookup s.references name).isSome = true ↔
    ∃ w, Contains ds (.ref w) ∧ sameName w.text name = true
  declared (w : Word) : Contains ds (.ref w) → (s.grammar.find? w.text).isSome

/-- A name has been defined if a definition so far gives it a body. --/
theorem Drawn.defined_iff (h : Drawn .empty ds s) (hc : s.Clean) (name : String) :
    (lookup s.definitions name).isSome = true ↔ bodiesOf false name ds ≠ [] := by
  obtain ⟨early, late, ht⟩ := h.told hc name
  rw [ht.defined, List.isSome_head?]

theorem Drawn.defines (h : Drawn .empty ds s) (hc : s.Clean) {name : String}
    (hname : (lookup s.definitions name).isSome = true) : s.grammar.defines name = true := by
  obtain ⟨early, late, ht⟩ := h.told hc name
  rw [ht.given.defines_eq, Option.isSome_map, ← ht.defined, hname]

/-- Further alternatives are in order if their name is defined, in the document so far or in the base. --/
theorem clean_extend_iff (h : Drawn .empty ds s) :
    (extend o w i s).Clean ↔ s.Clean ∧ (bodiesOf false w.text ds ≠ [] ∨ o.baseDefines w.text = true) := by
  unfold extend
  by_cases hown : (lookup s.definitions w.text).isSome = true
  · rw [if_pos hown]
    cases he : s.grammar.extend w.text i with
    | ok out =>
      change s.Clean ↔ _
      exact ⟨fun hc => ⟨hc, .inl ((h.defined_iff hc w.text).mp hown)⟩, And.left⟩
    | error e =>
      refine iff_of_false (not_clean_incrementalUndefined w s) fun ⟨hc, _⟩ => ?_
      obtain ⟨r, g, hok⟩ := Grammar.exists_extend (h.defines hc hown) i
      cases hok.symm.trans he
  · rw [if_neg hown]
    have hnone : s.Clean → ¬bodiesOf false w.text ds ≠ [] := fun hc => mt (h.defined_iff hc w.text).mpr hown
    split
    · exact (and_iff_left_of_imp fun _ => .inr ‹_›).symm
    · exact iff_of_false (not_clean_incrementalUndefined w s) fun ⟨hc, hbase⟩ => hbase.elim (hnone hc) ‹_›

/-- A definition is in order if it is the first of its name and may take the place of one in the base. --/
theorem clean_define_iff (h : Drawn .empty ds s) (sign : DefinedAs) : (define o w sign i s).Clean ↔
    s.Clean ∧ bodiesOf false w.text ds = [] ∧ (o.rejectBaseOverrides = true → o.baseDefines w.text = false) := by
  have hown : s.Clean → ((lookup s.definitions w.text).isSome = true ↔ bodiesOf false w.text ds ≠ []) :=
    fun hc => h.defined_iff hc w.text
  unfold define
  cases hfirst : lookup s.definitions w.text with
  | some first =>
    rw [hfirst] at hown
    exact iff_of_false (not_clean_tell s rfl) fun ⟨hc, hnil, _⟩ => (hown hc).mp rfl hnil
  | none =>
    rw [hfirst] at hown
    have hnil : s.Clean → bodiesOf false w.text ds = [] := fun hc => by
      by_contra hne
      cases (hown hc).mpr hne
    dsimp only
    split
    · rename_i hreject
      rw [Bool.and_eq_true] at hreject
      refine iff_of_false (not_clean_tell s rfl) fun ⟨_, _, hbase⟩ => ?_
      cases hreject.2.symm.trans (hbase hreject.1)
    · rename_i hallowed
      rw [Bool.and_eq_true, not_and, Bool.not_eq_true] at hallowed
      change s.Clean ↔ _
      exact ⟨fun hc => ⟨hc, hnil hc, hallowed⟩, And.left⟩

theorem keeps_extend (o : CompileOptions) (w : Word) (i : NodeId) (s : State) :
    (extend o w i s).references = s.references ∧ s.grammar.Grows (extend o w i s).grammar := by
  unfold extend
  split
  · cases he : s.grammar.extend w.text i with
    | ok out => exact ⟨rfl, Grammar.grows_extend s.grammar he⟩
    | error e => exact ⟨rfl, .refl _⟩
  · split <;> exact ⟨rfl, .refl _⟩

theorem keeps_define (o : CompileOptions) (w : Word) (sign : DefinedAs) (i : NodeId) (s : State) :
    (define o w sign i s).references = s.references ∧ s.grammar.Grows (define o w sign i s).grammar ∧
      (define o w sign i s).extensions = s.extensions := by
  unfold define
  split
  · exact ⟨rfl, .refl _, rfl⟩
  · dsimp only
    split <;> exact ⟨rfl, Grammar.grows_define _ _ _, rfl⟩

/-- Alternatives of a name that has no definition yet wait for the base. --/
theorem extensions_extend (o : CompileOptions) (w : Word) (i : NodeId) (s : State) : (extend o w i s).extensions =
    if (lookup s.definitions w.text).isSome = false ∧ o.baseDefines w.text = true then s.extensions ++ [⟨w, i⟩]
    else s.extensions := by
  unfold extend
  cases hown : (lookup s.definitions w.text).isSome with
  | true =>
    rw [if_pos rfl, if_neg nofun]
    split <;> rfl
  | false =>
    rw [if_neg Bool.false_ne_true]
    split <;> rename_i hbase
    · rw [if_pos ⟨rfl, hbase⟩]
    · rw [if_neg fun h => hbase h.2]
      rfl

section
variable {sign : DefinedAs} (h : Taken o ds s) (hs : Notes body.parts s s')
include h hs

/-- What a definition refers to is noted with its body. --/
theorem Taken.refers (w : Word) (sign : DefinedAs) {t : State} (href : t.references = s'.references)
    (hgrow : s'.grammar.Grows t.grammar) :
    (∀ name, (lookup t.references name).isSome = true ↔
      ∃ x, Contains (ds ++ [⟨some w, some sign, some body⟩]) (.ref x) ∧ sameName x.text name = true) ∧
      ∀ x, Contains (ds ++ [⟨some w, some sign, some body⟩]) (.ref x) → (t.grammar.find? x.text).isSome := by
  refine ⟨fun name => ?_, fun x hx => ?_⟩
  · rw [href, hs.references, h.references, ← exists_or]
    simp only [contains_whole, or_and_right]
  · have hfound : (s'.grammar.find? x.text).isSome := by
      rcases contains_whole.mp hx with hx | hx
      · obtain ⟨r, hr⟩ := Option.isSome_iff_exists.mp (h.declared x hx)
        exact Option.isSome_of_eq_some (hs.grows.find? hr)
      · exact (hs.declared x.text).mpr (.inr ⟨x, hx, sameName_refl _⟩)
    obtain ⟨r, hr⟩ := Option.isSome_iff_exists.mp hfound
    exact Option.isSome_of_eq_some (hgrow.find? hr)

theorem taken_extend (hdrawn : Drawn .empty ds s') (hsign : sign.incremental = true)
    (hnew : Drawn .empty (ds ++ [⟨some w, some sign, some body⟩]) (extend o w i s')) :
    Taken o (ds ++ [⟨some w, some sign, some body⟩]) (extend o w i s') := by
  obtain ⟨href, hgrow⟩ := keeps_extend o w i s'
  obtain ⟨hreferences, hdeclared⟩ := h.refers hs w sign href hgrow
  have hclean := clean_extend_iff (o := o) (w := w) (i := i) hdrawn
  refine ⟨hnew, ?_, ?_, fun hc name => ?_, hreferences, hdeclared⟩
  · rw [hclean, hs.clean, h.clean, inOrder_snoc, fits_whole, hsign, if_pos rfl, and_assoc]
  · rw [extensions_extend, hs.extensions]
    split
    · rename_i hwait
      exact List.forall_mem_append.mpr ⟨h.based, List.forall_mem_singleton.mpr hwait.2⟩
    · exact h.based
  · obtain ⟨hc', hfollows⟩ := hclean.mp hc
    have hown := hdrawn.defined_iff hc' w.text
    rw [inOrder_snoc, ← h.waiting (hs.clean.mp hc').1 name, extensions_extend, hs.extensions]
    split
    · rename_i hwait
      have hnil : bodiesOf false w.text ds = [] := by
        by_contra hne
        cases hwait.1.symm.trans (hown.mpr hne)
      rw [List.forall_mem_append, List.forall_mem_singleton, bodyOf_whole]
      refine and_congr_right fun _ => ?_
      dsimp only
      cases hn : sameName w.text name with
      | false => simp
      | true => simp [hsign, ← bodiesOf_sameName hn, hnil]
    · rename_i hwait
      refine (and_iff_left fun hname => ?_).symm
      rw [bodyOf_whole] at hname
      split at hname
      · rename_i hn
        rw [← bodiesOf_sameName hn.1]
        rcases hfollows with hne | hbase
        · exact hne
        · exact hown.mp (Bool.not_eq_false _ ▸ fun hfalse => hwait ⟨hfalse, hbase⟩)
      · cases hname

theorem taken_define (hdrawn : Drawn .empty ds s') (hsign : sign.incremental = false)
    (hnew : Drawn .empty (ds ++ [⟨some w, some sign, some body⟩]) (define o w sign i s')) :
    Taken o (ds ++ [⟨some w, some sign, some body⟩]) (define o w sign i s') := by
  obtain ⟨href, hgrow, hextensions⟩ := keeps_define o w sign i s'
  obtain ⟨hreferences, hdeclared⟩ := h.refers hs w sign href hgrow
  have hclean := clean_define_iff (o := o) (w := w) (i := i) hdrawn sign
  refine ⟨hnew, ?_, ?_, fun hc name => ?_, hreferences, hdeclared⟩
  · rw [hclean, hs.clean, h.clean, inOrder_snoc, fits_whole, hsign, if_neg Bool.false_ne_true, and_assoc]
  · rw [hextensions, hs.extensions]
    exact h.based
  · rw [inOrder_snoc, ← h.waiting (hs.clean.mp (hclean.mp hc).1).1 name, hextensions, hs.extensions]
    refine (and_iff_left fun hname => ?_).symm
    rw [bodyOf_whole, if_neg fun hother => absurd hother.2 (by simp [hsign])] at hname
    cases hname

end

/-- Definitions without a body change nothing. --/
theorem taken_skip (h : Taken o ds s) (hnone : ∀ incremental name, d.bodyOf incremental name = none)
    (hnew : Drawn .empty (ds ++ [d]) s) : Taken o (ds ++ [d]) s := by
  have hcontains : ∀ e, Contains (ds ++ [d]) e ↔ Contains ds e := fun e => by
    rw [contains_snoc]
    simp [hnone]
  have hfits : Fits o ds d := ⟨by simp [hnone], by simp [hnone], by simp [hnone], by simp [hnone]⟩
  refine ⟨hnew, ?_, h.based, fun hc name => ?_, fun name => ?_, fun w hw => h.declared w ((hcontains _).mp hw)⟩
  · rw [h.clean, inOrder_snoc, and_iff_left hfits]
  · rw [h.waiting hc, inOrder_snoc, and_iff_left (by simp [hnone])]
  · rw [h.references]
    simp only [hcontains]

theorem taken_definition (h : Taken o ds s) (d : Definition) : Taken o (ds ++ [d]) (definition o s d) := by
  have hnew := drawn_definition o h.drawn d
  obtain ⟨name, definedAs, body⟩ := d
  rcases name with _ | w
  · exact taken_skip h (fun _ _ => rfl) hnew
  · rcases definedAs with _ | sign
    · exact taken_skip h (fun _ _ => rfl) hnew
    · rcases body with _ | body
      · exact taken_skip h (fun _ _ => rfl) hnew
      · have hlowers := lowers_expr body h.drawn.sound
        have hdrawn := h.drawn.later hlowers.steps hlowers.sound
        have hnotes := notes_expr body s
        rw [definition] at hnew ⊢
        dsimp only at hnew ⊢
        split at hnew <;> rename_i hsign
        · rw [if_pos hsign]
          exact taken_extend h hnotes hdrawn hsign hnew
        · rw [if_neg hsign]
          exact taken_define h hnotes hdrawn (Bool.eq_false_iff.mpr hsign) hnew

theorem taken_definitions : ∀ (more : List Definition) {ds : List Definition} {s : State}, Taken o ds s →
    Taken o (ds ++ more) (more.foldl (definition o) s)
  | [], ds, s, h => by rwa [List.append_nil]
  | d :: more, ds, s, h => by
    rw [List.append_cons]
    exact taken_definitions more (taken_definition h d)

theorem inOrder_nil (P : List Definition → Definition → Prop) : InOrder P [] := by
  intro before d after h
  simp at h

theorem taken_initial (o : CompileOptions) (ds : List Definition) : Taken o [] (initial o ds) where
  drawn := drawn_initial o ds
  clean := iff_of_true rfl (inOrder_nil _)
  based := nofun
  waiting _ _ := iff_of_true nofun (inOrder_nil _)
  references _ := iff_of_false nofun fun ⟨_, ⟨_, _, _, hbody, _⟩, _⟩ => List.not_mem_nil hbody
  declared _ := fun ⟨_, _, _, hbody, _⟩ => absurd hbody List.not_mem_nil

theorem taken_drawn (o : CompileOptions) (ds : List Definition) : Taken o ds (drawn o ds) :=
  taken_definitions ds (taken_initial o ds)

/-! ### Documents -/

/-- Alternatives that waited for the base are in order if the document does not define their name after all. --/
theorem clean_extensions_iff : ∀ (xs : List Extension) {s : State},
    (∀ x ∈ xs, (lookup s.definitions x.name.text).isSome = false → s.grammar.defines x.name.text = true) →
    ((xs.foldl extendBase s).Clean ↔ s.Clean ∧ ∀ x ∈ xs, (lookup s.definitions x.name.text).isSome = false)
  | [], _, _ => by simp
  | x :: xs, s, hbase => by
    obtain ⟨hx, hxs⟩ := List.forall_mem_cons.mp hbase
    rw [List.foldl_cons, List.forall_mem_cons]
    cases hown : (lookup s.definitions x.name.text).isSome with
    | true =>
      refine iff_of_false (fun hc => ?_) fun h => Bool.noConfusion h.2.1
      cases hown.symm.trans (extendBase_eq (clean_of_extendBase xs hc)).1
    | false =>
      obtain ⟨r, g, he⟩ := Grammar.exists_extend (hx hown) x.node
      have hstep : extendBase s x = { s with grammar := g } := by
        rw [extendBase, hown, if_neg Bool.false_ne_true, he]
      have ih := clean_extensions_iff xs (s := { s with grammar := g }) fun y hy hy' =>
        Grammar.defines_extend he (hxs y hy hy')
      rw [hstep, ih, eq_self_iff_true, true_and]
      rfl

theorem references_extensions : ∀ (xs : List Extension) (s : State), (xs.foldl extendBase s).references = s.references
  | [], _ => rfl
  | x :: xs, s => by
    rw [List.foldl_cons, references_extensions xs, extendBase]
    split
    · rfl
    · split <;> rfl

theorem grows_extensions : ∀ (xs : List Extension) (s : State), s.grammar.Grows (xs.foldl extendBase s).grammar
  | [], _ => .refl _
  | x :: xs, s => by
    refine Grammar.Grows.trans ?_ (grows_extensions xs (extendBase s x))
    rw [extendBase]
    split
    · exact .refl _
    · split
      · exact Grammar.grows_extend s.grammar ‹_›
      · exact .refl _

/-- References are in order if no name without a definition is referred to, unless that is allowed. --/
theorem clean_references_iff (o : CompileOptions) : ∀ (names : List String) (s : State),
    (names.foldl (checkReference o) s).Clean ↔
      s.Clean ∧ (o.allowIncomplete = false → ∀ name ∈ names, (lookup s.references name).isSome = false)
  | [], s => by simp
  | name :: names, s => by
    rw [List.foldl_cons, clean_references_iff o names, checkReference]
    split
    · rename_i hnone
      simp [hnone]
    · rename_i w hw
      cases o.allowIncomplete with
      | true => simp [State.Clean, State.tell, Diagnostic.hasErrors, Diagnostic.isError, Diagnostic.withSeverity]
      | false =>
        refine iff_of_false (fun h => not_clean_tell s rfl h.1) fun h => ?_
        have hname := h.2 rfl name List.mem_cons_self
        rw [hw] at hname
        cases hname

/-- Each definition gives its bodies. --/
theorem exists_mem_bodyOf {incremental : Bool} {name : String} {body : Expr} (h : body ∈ bodiesOf incremental name ds) :
    ∃ before d after, ds = before ++ d :: after ∧ d.bodyOf incremental name = some body := by
  obtain ⟨d, hd, hbody⟩ := List.mem_filterMap.mp h
  obtain ⟨before, after, hds⟩ := List.append_of_mem hd
  exact ⟨before, d, after, hds, hbody⟩

theorem bodiesOf_ne_nil {incremental : Bool} {name : String} {before after : List Definition} {d : Definition}
    (h : (d.bodyOf incremental name).isSome) : bodiesOf incremental name (before ++ d :: after) ≠ [] := by
  obtain ⟨body, hbody⟩ := Option.isSome_iff_exists.mp h
  exact List.ne_nil_of_mem (List.mem_filterMap.mpr ⟨d, by simp, hbody⟩)

/-- No name is defined twice just if each definition is the first of its name. --/
theorem once_iff (name : String) (ds : List Definition) : (bodiesOf false name ds).length ≤ 1 ↔
    InOrder (fun before d => (d.bodyOf false name).isSome → bodiesOf false name before = []) ds := by
  induction ds using List.reverseRecOn with
  | nil => exact iff_of_true (Nat.zero_le 1) (inOrder_nil _)
  | append_singleton ds d ih =>
    rw [inOrder_snoc, ← ih, bodiesOf_append]
    cases d.bodyOf false name with
    | none => simp
    | some body =>
      rw [List.length_append, Option.toList_some, List.length_singleton, ← List.length_eq_zero_iff]
      simp only [Option.isSome_some, true_implies]
      omega

/-- A definition in order has fair parts only. --/
theorem fair_of_contains (h : InOrder (Fits o) ds) {e : Expr} (he : Contains ds e) : e.Fair := by
  obtain ⟨incremental, name, body, hbody, he⟩ := he
  obtain ⟨before, d, after, hds, hd⟩ := exists_mem_bodyOf hbody
  exact (h before d after hds).fair incremental name body hd e he

/-- What a name means with the base comes from a definition or from the base. --/
theorem isSome_own? (o : CompileOptions) (ds : List Definition) (input : ByteArray) (strings : String → Reader)
    (name : String) : ((Document.mk ds o.base).own? input strings name).isSome = true ↔
      bodiesOf false name ds ≠ [] ∨ o.baseDefines name = true := by
  unfold Document.own? CompileOptions.baseDefines
  dsimp only
  cases hown : bodiesOf false name ds with
  | cons e es => simp
  | nil =>
    cases o.base with
    | none => simp
    | some base =>
      rw [or_iff_right fun h => h rfl]
      change (base.meaning? input name).isSome = true ↔ base.defines name = true
      rw [Grammar.meaning?, Option.isSome_map, Grammar.defines]
      cases base.find? name <;> rfl

theorem defines_extended (hb : ∀ base, o.base = some base → base.WellFormed) (hc : (extended o ds).Clean)
    (name : String) :
    (extended o ds).grammar.defines name = true ↔ bodiesOf false name ds ≠ [] ∨ o.baseDefines name = true := by
  rw [(gives_extended .empty hb hc name).defines_eq, Document.meaning?, Option.isSome_map]
  exact isSome_own? o ds .empty _ name

theorem withBase_eq (o : CompileOptions) (s : State) : (withBase o s).definitions = s.definitions ∧
    (withBase o s).references = s.references ∧ ((withBase o s).Clean ↔ s.Clean) := by
  unfold withBase
  split <;> exact ⟨rfl, rfl, .rfl⟩

theorem clean_extended_iff (hb : ∀ base, o.base = some base → base.WellFormed) : (extended o ds).Clean ↔
    (drawn o ds).Clean ∧ ∀ x ∈ (drawn o ds).extensions, bodiesOf false x.name.text ds = [] := by
  have htaken := taken_drawn o ds
  obtain ⟨hdefinitions, -, hclean⟩ := withBase_eq o (drawn o ds)
  have hiff : (drawn o ds).Clean → ((extended o ds).Clean ↔ (drawn o ds).Clean ∧
      ∀ x ∈ (drawn o ds).extensions, (lookup (drawn o ds).definitions x.name.text).isSome = false) := by
    intro hc
    have hall := clean_extensions_iff (drawn o ds).extensions (s := withBase o (drawn o ds)) fun x hx _ => by
      obtain ⟨early, late, ht⟩ := htaken.drawn.told hc x.name.text
      rw [(ht.withBase hb).defines_eq, Option.isSome_map]
      exact (isSome_own? o ds .empty _ x.name.text).mpr (.inr (htaken.based x hx))
    rwa [hdefinitions, hclean] at hall
  have hnone : (drawn o ds).Clean → ∀ name, (lookup (drawn o ds).definitions name).isSome = false ↔
      bodiesOf false name ds = [] := fun hc name => by
    rw [← Bool.not_eq_true, htaken.drawn.defined_iff hc name, not_ne_iff]
  constructor
  · intro h
    have hc := clean_drawn h
    exact ⟨hc, fun x hx => (hnone hc _).mp (((hiff hc).mp h).2 x hx)⟩
  · rintro ⟨hc, h⟩
    exact (hiff hc).mpr ⟨hc, fun x hx => (hnone hc _).mpr (h x hx)⟩

section
variable (hb : ∀ base, o.base = some base → base.WellFormed) (hc : (extended o ds).Clean)
include hb hc

theorem fits_of_clean : InOrder (Fits o) ds := (taken_drawn o ds).clean.mp ((clean_extended_iff hb).mp hc).1

/-- Alternatives behind no definition of their name wait for the base, and then the document has none at all. --/
theorem follows_of_clean {before after : List Definition} {d : Definition} (hds : ds = before ++ d :: after) {name : String}
    (hname : (d.bodyOf true name).isSome) :
    bodiesOf false name before ≠ [] ∨ bodiesOf false name ds = [] ∧ o.baseDefines name = true := by
  obtain ⟨hdrawn, hwaits⟩ := (clean_extended_iff hb).mp hc
  by_cases hnil : bodiesOf false name before = []
  · have hbase := ((fits_of_clean hb hc before d after hds).follows name hname).resolve_left fun hne => hne hnil
    refine .inr ⟨?_, hbase⟩
    by_contra hne
    refine absurd (((taken_drawn o ds).waiting hdrawn name).mp fun x hx => ?_) fun h => h before d after hds hname hnil
    refine Bool.eq_false_iff.mpr fun hn => hne ?_
    rw [← bodiesOf_sameName hn]
    exact hwaits x hx
  · exact .inl hnil

/-- A name that is referred to is declared. If it is not defined, it is among those that are told of. --/
theorem references_of_clean (hnames : ∀ name ∈ (extended o ds).grammar.undefinedNames,
    (lookup (drawn o ds).references name).isSome = false) {w : Word} (hw : Contains ds (.ref w)) :
    bodiesOf false w.text ds ≠ [] ∨ o.baseDefines w.text = true := by
  have htaken := taken_drawn o ds
  rw [← defines_extended hb hc]
  obtain ⟨r, hr⟩ := Option.isSome_iff_exists.mp (htaken.declared w hw)
  have hgrow := (grows_withBase o (drawn o ds)).trans (grows_extensions (drawn o ds).extensions _)
  have hr : (extended o ds).grammar.find? w.text = some r := hgrow.find? hr
  by_contra hundefined
  obtain ⟨⟨x, hx, hn⟩, -⟩ := Grammar.find?_eq_some_iff.mp hr
  have hroot : x.root = none := by
    by_contra hsome
    obtain ⟨i, hi⟩ := Option.ne_none_iff_exists'.mp hsome
    exact hundefined (Grammar.defines_iff.mpr ⟨r, i, hr, Grammar.root?_eq_some_iff.mpr ⟨x, hx, hi⟩⟩)
  have hmem := hnames x.name (Grammar.mem_undefinedNames_iff.mpr ⟨r, x, hx, rfl, hroot⟩)
  rw [(htaken.references x.name).mpr ⟨w, hw, sameName_comm x.name w.text ▸ hn⟩] at hmem
  cases hmem

/-- A document without a fault may be made of its definitions. --/
theorem accepts_of_clean (hnames : o.allowIncomplete = false → ∀ name ∈ (extended o ds).grammar.undefinedNames,
    (lookup (drawn o ds).references name).isSome = false) : o.Accepts ds := by
  have hfits := fits_of_clean hb hc
  refine
    { prose := fun w hw => fair_of_contains hfits hw
      values := fun w hw => fair_of_contains hfits hw
      repeats := fun span r e hr => fair_of_contains hfits hr
      once := fun name => (once_iff name ds).mpr fun before d after hds => (hfits before d after hds).once name
      follows := fun before d after hds name hname => follows_of_clean hb hc hds hname
      overrides := fun hreject name hname => ?_
      references := fun hcomplete w hw => references_of_clean hb hc (hnames hcomplete) hw }
  obtain ⟨body, hbody⟩ := List.exists_mem_of_ne_nil _ hname
  obtain ⟨before, d, after, hds, hd⟩ := exists_mem_bodyOf hbody
  exact (hfits before d after hds).overrides name (Option.isSome_of_eq_some hd) hreject

end

theorem fair_of_accepts (h : o.Accepts ds) : ∀ {e : Expr}, Contains ds e → e.Fair
  | .prose w, he => h.prose w he
  | .num w, he => h.values w he
  | .repetition span (some r) (some e), he => h.repeats span r e he
  | .repetition _ (some _) none, _ | .repetition _ none _, _ | .alternation .., _ | .concatenation .., _ | .ref _, _
  | .str _, _ | .group .., _ | .optional .., _ => trivial

theorem clean_of_accepts (hb : ∀ base, o.base = some base → base.WellFormed) (h : o.Accepts ds) :
    (extended o ds).Clean := by
  have htaken := taken_drawn o ds
  have hfits : InOrder (Fits o) ds := fun before d after hds =>
    { fair := fun incremental name body hbody e he => fair_of_accepts h
        ⟨incremental, name, body, List.mem_filterMap.mpr ⟨d, by simp [hds], hbody⟩, he⟩
      follows := fun name hname => (h.follows before d after hds name hname).imp_right And.right
      once := fun name => (once_iff name ds).mp (h.once name) before d after hds
      overrides := fun name hname hreject => h.overrides hreject name (hds ▸ bodiesOf_ne_nil hname) }
  have hdrawn := htaken.clean.mpr hfits
  refine (clean_extended_iff hb).mpr ⟨hdrawn, fun x hx => ?_⟩
  -- Alternatives wait if some of them come before a definition, so that there is none.
  by_contra hne
  have hwaits := (htaken.waiting hdrawn x.name.text).mpr fun before d after hds hname =>
    (h.follows before d after hds x.name.text hname).resolve_right fun hnone => hne hnone.1
  exact absurd (hwaits x hx) (by simp [sameName_refl])

/-- A name that is declared and not defined is one that nothing in the document refers to. --/
theorem references_of_accepts (hb : ∀ base, o.base = some base → base.WellFormed) (h : o.Accepts ds)
    (hcomplete : o.allowIncomplete = false) {name : String} (hname : name ∈ (extended o ds).grammar.undefinedNames) :
    (lookup (drawn o ds).references name).isSome = false := by
  have hc := clean_of_accepts hb h
  refine Bool.eq_false_iff.mpr fun hsome => ?_
  obtain ⟨w, hw, hn⟩ := ((taken_drawn o ds).references name).mp hsome
  have hdefines := (defines_extended hb hc w.text).mpr (h.references hcomplete w hw)
  obtain ⟨r, x, hx, rfl, hroot⟩ := Grammar.mem_undefinedNames_iff.mp hname
  rw [Grammar.defines_sameName hn] at hdefines
  obtain ⟨q, i, hq, hi⟩ := Grammar.defines_iff.mp hdefines
  cases hq.symm.trans ((wellFormed_extended hb hc).distinct.find?_name hx)
  obtain ⟨y, hy, hsome⟩ := Grammar.root?_eq_some_iff.mp hi
  cases hx.symm.trans hy
  cases hroot.symm.trans hsome

theorem hasErrors_document_iff (hb : ∀ base, o.base = some base → base.WellFormed) :
    Diagnostic.hasErrors (document o ds).2 = false ↔ o.Accepts ds := by
  have hreferences : (extended o ds).references = (drawn o ds).references :=
    (references_extensions _ _).trans (withBase_eq o (drawn o ds)).2.1
  have hchecked := clean_references_iff o (extended o ds).grammar.undefinedNames (extended o ds)
  rw [hreferences] at hchecked
  rw [document_checked]
  refine hchecked.trans ⟨fun h => accepts_of_clean hb h.1 h.2, fun h => ?_⟩
  exact ⟨clean_of_accepts hb h, fun hcomplete name hname => references_of_accepts hb h hcomplete hname⟩

end
end Assembly

/-- A document without a mistake in its text is compiled just if it may be made of its definitions. --/
theorem compile_iff {source : String} {o : CompileOptions} (hquiet : (parse source o.nestingLimit).diagnostics = [])
    (hb : ∀ base, o.base = some base → base.WellFormed) :
    (∃ c, compile source o = .ok c) ↔ o.Accepts (parse source o.nestingLimit).tree.definitions := by
  rw [← Assembly.hasErrors_document_iff hb, compile, hquiet]
  dsimp only
  rw [if_neg (by simp [Diagnostic.hasErrors])]
  cases Diagnostic.hasErrors (Assembly.document o (parse source o.nestingLimit).tree.definitions).2 with
  | false => exact iff_of_true ⟨_, rfl⟩ rfl
  | true => exact iff_of_false nofun nofun

/-- A rule of its own and further alternatives for a rule of the base. --/
def added : String := "u = 1#2t\nt =/ %x63\n"

/-- A definition of that rule behind its further alternatives. --/
def late : String := "u = 1#2t\nt =/ %x63\nt = u\n"

/-- Alternatives may be added to the base's rule unless the document defines one of that name, be it after them. --/
theorem compile_iff_added :
    let o : CompileOptions := { base := some Grammar.turns }
    (parse added o.nestingLimit).diagnostics = [] ∧ (parse late o.nestingLimit).diagnostics = [] ∧
      (∀ base, o.base = some base → base.WellFormed) ∧ o.Accepts (parse added o.nestingLimit).tree.definitions ∧
      ¬o.Accepts (parse late o.nestingLimit).tree.definitions := by
  intro o
  have hadded : (parse added o.nestingLimit).diagnostics = [] := by decide +kernel
  have hlate : (parse late o.nestingLimit).diagnostics = [] := by decide +kernel
  have hb : ∀ base, o.base = some base → base.WellFormed := by
    rintro base ⟨⟩
    exact Grammar.wellFormed_turns
  have hok : ∃ c, compile added o = .ok c := by
    have h : (compile added o).isOk = true := by decide +kernel
    cases hc : compile added o with
    | ok c => exact ⟨c, rfl⟩
    | error ds =>
      rw [hc] at h
      cases h
  have herror : ¬∃ c, compile late o = .ok c := by
    rintro ⟨c, hc⟩
    have h : (compile late o).isOk = false := by decide +kernel
    rw [hc] at h
    cases h
  exact ⟨hadded, hlate, hb, (compile_iff (o := o) hadded hb).mp hok, herror ∘ (compile_iff (o := o) hlate hb).mpr⟩

end Abnf
