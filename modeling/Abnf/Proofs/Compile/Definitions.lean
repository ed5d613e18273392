import Abnf.Proofs.Compile.Lowering
import Abnf.Proofs.Grammar.Include

/-! The definitions of a document, one after the other. After each of them every name means what the definitions so
    far make of it (`Told`): its `=` body and the `=/` bodies behind it, while `=/` bodies that come before
    any `=` body wait for the base. When the base has been included and the waiting bodies have been added,
    every name means what the document says (`gives_document`), unless a fault was found. -/

namespace Abnf
namespace Assembly

open State

/-! ### Bodies -/

/-- What an expression reads, its strings as they are taken apart when they are compiled. --/
abbrev reading (input : ByteArray) (e : Expr) : Meaning := fun rules => e.reader input (stringReader input) rules

/-- What expressions read. --/
def meanings (input : ByteArray) (es : List Expr) : List Meaning := es.map (reading input)

theorem bodiesOf_append (incremental : Bool) (name : String) (ds : List Definition) (d : Definition) :
    Definition.bodiesOf incremental name (ds ++ [d]) =
      Definition.bodiesOf incremental name ds ++ (d.bodyOf incremental name).toList := by
  unfold Definition.bodiesOf
  rw [List.filterMap_append]
  cases h : d.bodyOf incremental name <;> simp [h]

/-- The nodes of a name that wait for the base. --/
def waiting (xs : List Extension) (name : String) : List NodeId :=
  (xs.filter fun x => sameName x.name.text name).map Extension.node

theorem waiting_append (xs : List Extension) (x : Extension) (name : String) :
    waiting (xs ++ [x]) name = waiting xs name ++ if sameName x.name.text name then [x.node] else [] := by
  unfold waiting
  rw [List.filter_append, List.map_append]
  cases h : sameName x.name.text name <;> simp [h]

theorem isSome_lookup_append (ws : List Word) (w : Word) (name : String) :
    (lookup (ws ++ [w]) name).isSome = ((lookup ws name).isSome || sameName w.text name) := by
  unfold lookup
  rw [List.find?_append]
  cases h : ws.find? fun w => sameName w.text name with
  | some first => rfl
  | none => cases hw : sameName w.text name <;> simp [hw]

theorem lookup_sameName {a b : String} (h : sameName a b = true) (ws : List Word) : lookup ws a = lookup ws b := by
  rw [sameName_iff] at h
  unfold lookup sameName
  rw [h]

/-! ### One name -/

/-- What the definitions so far have made of a name: `early` bodies wait for the base, `late` ones follow the
    name's own body. --/
structure Told (input : ByteArray) (ds : List Definition) (s : State) (name : String) (early late : List Expr) :
    Prop where
  bodies : Definition.bodiesOf true name ds = early ++ late
  waits : List.Forall₂ (s.grammar.Means input) (waiting s.extensions name) (meanings input early)
  defined : (lookup s.definitions name).isSome = (Definition.bodiesOf false name ds).head?.isSome
  given : s.grammar.Gives input name ((Definition.bodiesOf false name ds).head?.map fun e =>
    Meaning.orElse (reading input e) (meanings input late))
  follows : (Definition.bodiesOf false name ds).head? = none → late = []

/-- What holds after some definitions. --/
structure Drawn (input : ByteArray) (ds : List Definition) (s : State) : Prop where
  sound : s.Sound input
  told : s.Clean → ∀ name, ∃ early late, Told input ds s name early late

section
variable {input : ByteArray} {ds : List Definition} {s s' : State} {name : String} {early late : List Expr}

/-- A name that nothing happens to. --/
theorem Told.keep (h : Told input ds s name early late) {ds' : List Definition}
    (hb : ∀ incremental, Definition.bodiesOf incremental name ds' = Definition.bodiesOf incremental name ds)
    (hg : s.grammar.Grows s'.grammar) (hw : waiting s'.extensions name = waiting s.extensions name)
    (hl : (lookup s'.definitions name).isSome = (lookup s.definitions name).isSome)
    (hm : ∀ m, s.grammar.Gives input name m → s'.grammar.Gives input name m) :
    Told input ds' s' name early late where
  bodies := (hb true).trans h.bodies
  waits := by
    rw [hw]
    exact h.waits.imp fun _ _ hm => hm.grow hg
  defined := by rw [hl, hb, h.defined]
  given := by
    rw [hb]
    exact hm _ h.given
  follows hnone := h.follows (hb false ▸ hnone)

theorem Drawn.later (h : Drawn input ds s) (hs : s.Steps s') (hsound : s'.Sound input) : Drawn input ds s' where
  sound := hsound
  told hc name := by
    obtain ⟨early, late, ht⟩ := h.told (hs.clean hc) name
    refine ⟨early, late, ht.keep (fun _ => rfl) hs.grows ?_ ?_ fun m hm => hm.grow hs.grows hs.roots⟩
    · rw [hs.extensions]
    · rw [hs.definitions]

/-! ### One definition -/

theorem not_clean_incrementalUndefined (w : Word) (s : State) : ¬(incrementalUndefined w s).Clean :=
  not_clean_tell s rfl

/-- A state whose grammar has grown. --/
theorem State.Sound.grown (hs : s.Sound input) (hw : s'.grammar.WellFormed) (hg : s.grammar.Grows s'.grammar)
    (hb : s'.blanks = s.blanks) (hc : s'.Clean → s.Clean) : s'.Sound input := by
  refine ⟨hw, fun i hi => ?_⟩
  obtain ⟨hlt, hm⟩ := hs.blanks i (hb ▸ hi)
  exact ⟨Nat.lt_of_lt_of_le hlt hg.size_nodes_le, fun h => (hm (hc h)).grow hg⟩

variable {d : Definition} {w : Word} {body : Expr} {i : NodeId}

/-- A definition gives a body to one name, with one of the two signs. --/
def Adds (d : Definition) (w : Word) (incremental : Bool) (body : Expr) : Prop :=
  ∀ sign name, d.bodyOf sign name = if sameName w.text name ∧ incremental = sign then some body else none

theorem Adds.other (hd : Adds d w incremental body) (ds : List Definition) (hn : sameName w.text name = false)
    (sign : Bool) : Definition.bodiesOf sign name (ds ++ [d]) = Definition.bodiesOf sign name ds := by
  rw [bodiesOf_append, hd, if_neg (by simp [hn]), Option.toList_none, List.append_nil]

theorem Adds.otherSign (hd : Adds d w incremental body) (ds : List Definition) {sign : Bool} (hs : incremental ≠ sign) :
    Definition.bodiesOf sign name (ds ++ [d]) = Definition.bodiesOf sign name ds := by
  rw [bodiesOf_append, hd, if_neg (by simp [hs]), Option.toList_none, List.append_nil]

theorem Adds.same (hd : Adds d w incremental body) (ds : List Definition) (hn : sameName w.text name = true) :
    Definition.bodiesOf incremental name (ds ++ [d]) = Definition.bodiesOf incremental name ds ++ [body] := by
  rw [bodiesOf_append, hd, if_pos ⟨hn, rfl⟩, Option.toList_some]

theorem Told.isSome_head (ht : Told input ds s name early late) (hn : sameName w.text name = true) :
    (Definition.bodiesOf false name ds).head?.isSome = (lookup s.definitions w.text).isSome := by
  rw [← ht.defined, lookup_sameName hn]

/-- A `=/` body of a name that has its own body is tried after what there is. --/
theorem Told.follow (ht : Told input ds s name early late) (hd : Adds d w true body) (hn : sameName w.text name = true)
    (hown : (lookup s.definitions w.text).isSome) {r : RuleId} {g : Grammar}
    (he : s.grammar.extend w.text i = .ok (r, g)) (hi : s.grammar.Means input i (reading input body)) :
    Told input (ds ++ [d]) { s with grammar := g } name early (late ++ [body]) := by
  have hfalse : Definition.bodiesOf false name (ds ++ [d]) = Definition.bodiesOf false name ds :=
    hd.otherSign ds (by decide)
  obtain ⟨e, hhead⟩ := Option.isSome_iff_exists.mp ((ht.isSome_head hn).trans hown)
  have hgiven := ht.given
  rw [hhead] at hgiven
  have hnew := Grammar.gives_extend he (hgiven.sameName (sameName_comm w.text name ▸ hn)) hi
  exact
    { bodies := by rw [hd.same ds hn, ht.bodies, List.append_assoc]
      waits := ht.waits.imp fun _ _ hm => hm.grow (Grammar.grows_extend s.grammar he)
      defined := by rw [hfalse, ← ht.defined]
      given := by
        rw [hfalse, hhead, Option.map_some, meanings, List.map_append, Meaning.orElse_append]
        exact hnew.sameName hn
      follows := fun hnone => by
        rw [hfalse, hhead] at hnone
        cases hnone }

/-- A `=/` body of a name that has no body yet waits for the base. --/
theorem Told.wait (ht : Told input ds s name early late) (hd : Adds d w true body) (hn : sameName w.text name = true)
    (hown : ¬(lookup s.definitions w.text).isSome) (hi : s.grammar.Means input i (reading input body)) :
    Told input (ds ++ [d]) { s with extensions := s.extensions ++ [⟨w, i⟩] } name (early ++ [body]) [] := by
  have hfalse : Definition.bodiesOf false name (ds ++ [d]) = Definition.bodiesOf false name ds :=
    hd.otherSign ds (by decide)
  obtain rfl := ht.follows (Option.not_isSome_iff_eq_none.mp ((ht.isSome_head hn).symm ▸ hown))
  exact
    { bodies := by rw [hd.same ds hn, ht.bodies, List.append_nil, List.append_nil]
      waits := by
        rw [waiting_append, if_pos hn, meanings, List.map_append]
        exact List.rel_append ht.waits (.cons hi .nil)
      defined := by rw [hfalse, ← ht.defined]
      given := by
        rw [hfalse]
        exact ht.given
      follows := fun _ => rfl }

/-- The first `=` body of a name is its own. --/
theorem Told.define (ht : Told input ds s name early late) (hd : Adds d w false body) (hn : sameName w.text name = true)
    (hown : lookup s.definitions w.text = none) (hi : s.grammar.Means input i (reading input body)) :
    Told input (ds ++ [d]) { s with
      definitions := s.definitions ++ [w], grammar := (s.grammar.define w.text i).2 } name early [] := by
  have htrue : Definition.bodiesOf true name (ds ++ [d]) = Definition.bodiesOf true name ds :=
    hd.otherSign ds (by decide)
  have hnone : (Definition.bodiesOf false name ds).head? = none := by
    rw [← Option.not_isSome_iff_eq_none, ht.isSome_head hn, hown]
    exact Bool.false_ne_true
  have hnil := List.head?_eq_none_iff.mp hnone
  obtain rfl := ht.follows hnone
  exact
    { bodies := by rw [htrue, ht.bodies]
      waits := ht.waits.imp fun _ _ hm => hm.grow (Grammar.grows_define s.grammar w.text i)
      defined := by
        rw [isSome_lookup_append, hn, Bool.or_true, hd.same ds hn, hnil]
        rfl
      given := by
        rw [hd.same ds hn, hnil]
        refine Grammar.Gives.sameName ?_ hn
        change Grammar.Gives _ input w.text (some (Meaning.orElse (reading input body) []))
        rw [Meaning.orElse_nil]
        exact Grammar.gives_define hi
      follows := fun _ => rfl }

/-- A `=/` body follows the name's own body or, if there is none yet, waits for the base. --/
theorem drawn_extend (o : CompileOptions) (hd : Adds d w true body) (h : Drawn input ds s)
    (hi : s.Holds input i (reading input body)) : Drawn input (ds ++ [d]) (extend o w i s) := by
  unfold extend
  by_cases hown : (lookup s.definitions w.text).isSome
  · rw [if_pos hown]
    cases he : s.grammar.extend w.text i with
    | error e => exact ⟨h.sound.tell _, fun hc => absurd hc (not_clean_incrementalUndefined w s)⟩
    | ok out =>
      obtain ⟨r, g⟩ := out
      have hgrow := Grammar.grows_extend s.grammar he
      refine ⟨h.sound.grown (h.sound.wellFormed.extend hi.1 he) hgrow rfl id, fun hc name => ?_⟩
      obtain ⟨early, late, ht⟩ := h.told hc name
      cases hn : sameName w.text name with
      | false =>
        refine ⟨early, late, ht.keep (hd.other ds hn) hgrow rfl rfl fun m hm => ?_⟩
        exact hm.extend he (sameName_comm name w.text ▸ hn)
      | true => exact ⟨early, late ++ [body], ht.follow hd hn hown he (hi.2 hc)⟩
  · rw [if_neg hown]
    split
    · refine ⟨h.sound.grown h.sound.wellFormed (.refl _) rfl id, fun hc name => ?_⟩
      obtain ⟨early, late, ht⟩ := h.told hc name
      cases hn : sameName w.text name with
      | false =>
        refine ⟨early, late, ht.keep (hd.other ds hn) (.refl _) ?_ rfl fun m hm => hm⟩
        rw [waiting_append, hn]
        exact List.append_nil _
      | true => exact ⟨early ++ [body], [], ht.wait hd hn hown (hi.2 hc)⟩
    · exact ⟨h.sound.tell _, fun hc => absurd hc (not_clean_incrementalUndefined w s)⟩

/-- A `=` body is the name's own, if it is the first. --/
theorem drawn_define (o : CompileOptions) {sign : DefinedAs} (hd : Adds d w false body) (h : Drawn input ds s)
    (hi : s.Holds input i (reading input body)) : Drawn input (ds ++ [d]) (define o w sign i s) := by
  unfold define
  cases hown : lookup s.definitions w.text with
  | some first => exact ⟨h.sound.tell _, fun hc => absurd hc (not_clean_tell s rfl)⟩
  | none =>
    dsimp only
    split
    · -- The rule of the base may not be defined again.
      refine ⟨(h.sound.tell _).grown (h.sound.wellFormed.define w.text hi.1) (Grammar.grows_define _ _ _) rfl id, ?_⟩
      exact fun hc => absurd hc (not_clean_tell s rfl)
    · have hgrow := Grammar.grows_define s.grammar w.text i
      refine ⟨h.sound.grown (h.sound.wellFormed.define w.text hi.1) hgrow rfl id, fun hc name => ?_⟩
      obtain ⟨early, late, ht⟩ := h.told hc name
      cases hn : sameName w.text name with
      | false =>
        refine ⟨early, late, ht.keep (hd.other ds hn) hgrow rfl ?_ fun m hm => ?_⟩
        · rw [isSome_lookup_append, hn, Bool.or_false]
        · exact hm.define (sameName_comm name w.text ▸ hn)
      | true => exact ⟨early, [], ht.define hd hn hown (hi.2 hc)⟩

theorem drawn_definition (o : CompileOptions) (h : Drawn input ds s) (d : Definition) :
    Drawn input (ds ++ [d]) (definition o s d) := by
  obtain ⟨name, definedAs, body⟩ := d
  have hskip : (∀ sign other, Definition.bodyOf sign other ⟨name, definedAs, body⟩ = none) →
      Drawn input (ds ++ [⟨name, definedAs, body⟩]) s := by
    refine fun hnone => ⟨h.sound, fun hc other => ?_⟩
    obtain ⟨early, late, ht⟩ := h.told hc other
    refine ⟨early, late, ht.keep (fun sign => ?_) (.refl _) rfl rfl fun _ hm => hm⟩
    rw [bodiesOf_append, hnone, Option.toList_none, List.append_nil]
  rcases name with _ | w
  · exact hskip fun _ _ => rfl
  · rcases definedAs with _ | sign
    · exact hskip fun _ _ => rfl
    · rcases body with _ | body
      · exact hskip fun _ _ => rfl
      · have hbody := lowers_expr body h.sound
        have hlater := h.later hbody.steps hbody.sound
        obtain ⟨incremental, word⟩ := sign
        cases incremental with
        | true => exact drawn_extend o (fun _ _ => rfl) hlater hbody.holds
        | false => exact drawn_define o (fun _ _ => rfl) hlater hbody.holds

/-- All definitions, one after the other. --/
theorem drawn_definitions (o : CompileOptions) : ∀ (more : List Definition) {ds : List Definition} {s : State},
    Drawn input ds s → Drawn input (ds ++ more) (more.foldl (definition o) s)
  | [], ds, s, h => by rwa [List.append_nil]
  | d :: more, ds, s, h => by
    rw [List.append_cons]
    exact drawn_definitions o more (drawn_definition o h d)

theorem drawn_initial (o : CompileOptions) (ds : List Definition) : Drawn input [] (initial o ds) where
  sound := ⟨Grammar.WellFormed.declareAll _ (.empty o.name), nofun⟩
  told _ name := by
    refine ⟨[], [], rfl, .nil, rfl, fun r _ => ?_, fun _ => rfl⟩
    refine (Grammar.root?_declareAll r _ _).trans ?_
    exact Grammar.root?_eq_none_of_le (Nat.zero_le r)

/-! ### The base -/

theorem extendBase_eq {x : Extension} (hc : (extendBase s x).Clean) :
    (lookup s.definitions x.name.text).isSome = false ∧
      ∃ r g, s.grammar.extend x.name.text x.node = .ok (r, g) ∧ extendBase s x = { s with grammar := g } := by
  unfold extendBase at hc ⊢
  split at hc
  · exact absurd hc (not_clean_incrementalUndefined x.name s)
  · rename_i hown
    rw [if_neg hown]
    cases he : s.grammar.extend x.name.text x.node with
    | error e =>
      rw [he] at hc
      exact absurd hc (not_clean_incrementalUndefined x.name s)
    | ok out => exact ⟨Bool.eq_false_iff.mpr hown, out.1, out.2, rfl, rfl⟩

theorem clean_of_extendBase : ∀ (xs : List Extension) {s : State}, (xs.foldl extendBase s).Clean → s.Clean
  | [], _, h => h
  | x :: xs, s, h => by
    have hx := clean_of_extendBase xs h
    obtain ⟨-, r, g, -, heq⟩ := extendBase_eq hx
    rw [heq] at hx
    exact hx

theorem waiting_cons (x : Extension) (xs : List Extension) (name : String) :
    waiting (x :: xs) name = (if sameName x.name.text name then [x.node] else []) ++ waiting xs name := by
  unfold waiting
  cases h : sameName x.name.text name <;> simp [h]

theorem map_orElse_nil (m : Option Meaning) : m.map (·.orElse []) = m := by
  cases m with
  | none => rfl
  | some f => exact congrArg some f.orElse_nil

/-- Bodies that waited follow what their name means in the base; a name of the document has none. --/
theorem gives_extendBase : ∀ (xs : List Extension) {s : State}, (xs.foldl extendBase s).Clean →
    ∀ {name : String} {m : Option Meaning} {fs : List Meaning}, s.grammar.Gives input name m →
      List.Forall₂ (s.grammar.Means input) (waiting xs name) fs →
      (fs ≠ [] → (lookup s.definitions name).isSome = false) ∧
        (xs.foldl extendBase s).grammar.Gives input name (m.map (·.orElse fs))
  | [], s, _, name, m, fs, hm, hfs => by
    cases hfs
    rw [map_orElse_nil]
    exact ⟨fun h => absurd rfl h, hm⟩
  | x :: xs, s, hc, name, m, fs, hm, hfs => by
    obtain ⟨hown, r, g, he, heq⟩ := extendBase_eq (clean_of_extendBase xs hc)
    have hgrow := Grammar.grows_extend s.grammar he
    rw [List.foldl_cons, heq] at hc ⊢
    rw [waiting_cons] at hfs
    cases hn : sameName x.name.text name with
    | false =>
      rw [hn] at hfs
      exact gives_extendBase xs hc (hm.extend he (sameName_comm name x.name.text ▸ hn))
        (hfs.imp fun _ _ h => h.grow hgrow)
    | true =>
      rw [hn] at hfs
      obtain ⟨f, more, hf, hmore, rfl⟩ := List.forall₂_cons_left_iff.mp hfs
      have hm := hm.sameName (sameName_comm x.name.text name ▸ hn)
      refine ⟨fun _ => lookup_sameName hn s.definitions ▸ hown, ?_⟩
      cases m with
      | none =>
        -- Nothing can be added to a rule that is not defined.
        have hnone : s.grammar.extend x.name.text x.node = .error (.unknown x.name.text) := by
          unfold Grammar.extend
          split
          · rfl
          · rw [hm _ ‹_›]
        rw [hnone] at he
        cases he
      | some first =>
        have hnew := (Grammar.gives_extend he hm hf).sameName hn
        have hrest := gives_extendBase xs hc hnew (hmore.imp fun _ _ h => h.grow hgrow)
        rw [Option.map_some, ← Meaning.orElse_append] at hrest
        exact hrest.2

/-- The state with the rules of the base. --/
def withBase (o : CompileOptions) (s : State) : State :=
  match o.base with
  | some base => { s with grammar := s.grammar.includeBase base }
  | none => s

theorem grows_withBase (o : CompileOptions) (s : State) : s.grammar.Grows (withBase o s).grammar := by
  unfold withBase
  split
  · exact Grammar.grows_includeBase _ _
  · exact .refl _

/-- With the base, a name means its own body or what it means in the base. --/
theorem Told.withBase {o : CompileOptions} (hb : ∀ base, o.base = some base → base.WellFormed)
    (h : Told input ds s name early late) : (withBase o s).grammar.Gives input name
      (((Document.mk ds o.base).own? input (stringReader input) name).map (·.orElse (meanings input late))) := by
  have hgiven := h.given
  unfold Document.own? Assembly.withBase
  dsimp only
  cases hown : (Definition.bodiesOf false name ds).head? with
  | some e =>
    rw [hown] at hgiven
    dsimp only
    split
    · exact hgiven.includeBase
    · exact hgiven
  | none =>
    rw [hown] at hgiven
    rw [h.follows hown]
    dsimp only
    rw [meanings, List.map_nil, map_orElse_nil]
    split
    · rename_i base hbase
      rw [hbase]
      exact Grammar.gives_includeBase (hb base hbase) hgiven
    · rename_i hbase
      rw [hbase]
      exact hgiven

/-! ### Documents -/

theorem checkReferences_eq (o : CompileOptions) : ∀ (names : List String) (s : State),
    (names.foldl (checkReference o) s).grammar = s.grammar ∧
      ((names.foldl (checkReference o) s).Clean → s.Clean)
  | [], _ => ⟨rfl, id⟩
  | name :: names, s => by
    obtain ⟨hg, hc⟩ := checkReferences_eq o names (checkReference o s name)
    have hstep : (checkReference o s name).grammar = s.grammar ∧ ((checkReference o s name).Clean → s.Clean) := by
      unfold checkReference
      split
      · exact ⟨rfl, id⟩
      · exact ⟨rfl, (steps_tell s _).clean⟩
    exact ⟨hg.trans hstep.1, fun h => hstep.2 (hc h)⟩

/-- The state after all definitions, and that with the bodies that waited for the base. --/
def drawn (o : CompileOptions) (ds : List Definition) : State := ds.foldl (definition o) (initial o ds)

def extended (o : CompileOptions) (ds : List Definition) : State :=
  (drawn o ds).extensions.foldl extendBase (withBase o (drawn o ds))

theorem document_checked (o : CompileOptions) (ds : List Definition) : document o ds =
    let s := (extended o ds).grammar.undefinedNames.foldl (checkReference o) (extended o ds)
    (s.grammar, s.diagnostics) := by
  unfold document extended withBase drawn
  cases o.base <;> rfl

theorem document_eq (o : CompileOptions) (ds : List Definition) :
    (document o ds).1 = (extended o ds).grammar ∧
      (Diagnostic.hasErrors (document o ds).2 = false → (extended o ds).Clean) := by
  rw [document_checked]
  exact checkReferences_eq o _ (extended o ds)

theorem drawn_spec (input : ByteArray) (o : CompileOptions) (ds : List Definition) : Drawn input ds (drawn o ds) :=
  drawn_definitions o ds (drawn_initial o ds)

theorem clean_drawn {o : CompileOptions} {ds : List Definition} (hc : (extended o ds).Clean) : (drawn o ds).Clean := by
  have h := clean_of_extendBase _ hc
  unfold withBase at h
  split at h <;> exact h

/-- With the bodies that waited, every name has the meaning that the document gives it, unless a fault was found. --/
theorem gives_extended (input : ByteArray) {o : CompileOptions} {ds : List Definition}
    (hb : ∀ base, o.base = some base → base.WellFormed) (hc : (extended o ds).Clean) (name : String) :
    (extended o ds).grammar.Gives input name ((Document.mk ds o.base).meaning? input (stringReader input) name) := by
  obtain ⟨early, late, ht⟩ := (drawn_spec input o ds).told (clean_drawn hc) name
  have hwaits := ht.waits.imp fun _ _ h => h.grow (grows_withBase o (drawn o ds))
  obtain ⟨hnone, hgives⟩ := gives_extendBase _ hc (ht.withBase hb) hwaits
  have hmeaning : (Document.mk ds o.base).meaning? input (stringReader input) name =
      (((Document.mk ds o.base).own? input (stringReader input) name).map (·.orElse (meanings input late))).map
        (·.orElse (meanings input early)) := by
    unfold Document.meaning?
    dsimp only
    rw [ht.bodies, Option.map_map]
    refine congrArg (fun f => Option.map f _) (funext fun f => ?_)
    -- Bodies that waited are there only if the name has no body of its own, and then no others are.
    cases early with
    | nil =>
      rw [List.nil_append]
      exact (Meaning.orElse_nil _).symm
    | cons e es =>
      have hown := hnone (by rw [meanings, List.map_cons]; exact nofun)
      have hdefined : (lookup (drawn o ds).definitions name).isSome = false := by
        unfold withBase at hown
        split at hown <;> exact hown
      rw [ht.defined] at hdefined
      rw [ht.follows (Option.not_isSome_iff_eq_none.mp (by rw [hdefined]; exact Bool.false_ne_true)), List.append_nil]
      rw [Function.comp_apply, meanings, List.map_nil, Meaning.orElse_nil]
      rfl
  rw [hmeaning]
  exact hgives

/-- The grammar of a document without a fault gives every name the meaning that the document does. --/
theorem gives_document (input : ByteArray) {o : CompileOptions} {ds : List Definition}
    (hb : ∀ base, o.base = some base → base.WellFormed) (hc : Diagnostic.hasErrors (document o ds).2 = false)
    (name : String) : (document o ds).1.Gives input name ((Document.mk ds o.base).meaning? input (stringReader input) name) := by
  obtain ⟨hgrammar, hclean⟩ := document_eq o ds
  rw [hgrammar]
  exact gives_extended input hb (hclean hc) name

/-! ### Well-formedness -/

/-- What is kept when a rule is given one more of the nodes that are there is kept by all bodies that waited. --/
theorem extendBase_keeps {P : Grammar → Prop}
    (hP : ∀ {g g' : Grammar} {name : String} {alternative : NodeId} {r : RuleId}, P g → alternative < g.nodes.size →
      g.extend name alternative = .ok (r, g') → P g') :
    ∀ (xs : List Extension) {s : State}, (xs.foldl extendBase s).Clean → P s.grammar →
      (∀ x ∈ xs, x.node < s.grammar.nodes.size) → P (xs.foldl extendBase s).grammar
  | [], _, _, hp, _ => hp
  | x :: xs, s, hc, hp, hlt => by
    obtain ⟨-, r, g, he, heq⟩ := extendBase_eq (clean_of_extendBase xs hc)
    have hgrow := Grammar.grows_extend s.grammar he
    rw [List.foldl_cons, heq] at hc ⊢
    refine extendBase_keeps hP xs hc (hP hp (hlt x List.mem_cons_self) he) fun y hy => ?_
    exact Nat.lt_of_lt_of_le (hlt y (List.mem_cons_of_mem x hy)) hgrow.size_nodes_le

/-- The bodies that wait are nodes of the document. --/
theorem lt_size_of_waits {o : CompileOptions} {ds : List Definition} (hc : (drawn o ds).Clean) :
    ∀ x ∈ (drawn o ds).extensions, x.node < (drawn o ds).grammar.nodes.size := by
  intro x hx
  obtain ⟨early, late, ht⟩ := (drawn_spec .empty o ds).told hc x.name.text
  have hmem : x.node ∈ waiting (drawn o ds).extensions x.name.text :=
    List.mem_map_of_mem (List.mem_filter.mpr ⟨hx, sameName_refl _⟩)
  obtain ⟨f, hf⟩ := Grammar.exists_means_of_mem ht.waits hmem
  exact hf.lt_size

theorem extended_keeps {P : Grammar → Prop}
    (hP : ∀ {g g' : Grammar} {name : String} {alternative : NodeId} {r : RuleId}, P g → alternative < g.nodes.size →
      g.extend name alternative = .ok (r, g') → P g')
    {o : CompileOptions} {ds : List Definition} (hc : (extended o ds).Clean)
    (hp : P (withBase o (drawn o ds)).grammar) : P (extended o ds).grammar := by
  refine extendBase_keeps hP _ hc hp fun x hx => ?_
  exact Nat.lt_of_lt_of_le (lt_size_of_waits (clean_drawn hc) x hx) (grows_withBase o (drawn o ds)).size_nodes_le

theorem wellFormed_extended {o : CompileOptions} {ds : List Definition}
    (hb : ∀ base, o.base = some base → base.WellFormed) (hc : (extended o ds).Clean) :
    (extended o ds).grammar.WellFormed := by
  refine extended_keeps (fun hw hlt he => hw.extend hlt he) hc ?_
  have hdrawn := (drawn_spec .empty o ds).sound.wellFormed
  unfold withBase
  split
  · exact hdrawn.includeBase (hb _ ‹_›)
  · exact hdrawn

/-- The grammar of a document without a fault is well-formed. --/
theorem wellFormed_document {o : CompileOptions} {ds : List Definition}
    (hb : ∀ base, o.base = some base → base.WellFormed) (hc : Diagnostic.hasErrors (document o ds).2 = false) :
    (document o ds).1.WellFormed := by
  obtain ⟨hgrammar, hclean⟩ := document_eq o ds
  rw [hgrammar]
  exact wellFormed_extended hb (hclean hc)

end

end Assembly
end Abnf
