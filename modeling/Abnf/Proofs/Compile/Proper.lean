import Abnf.Proofs.Compile.Meaning
import Abnf.Proofs.Document.Shape
import Abnf.Proofs.Grammar.Proper

/-! What is compiled is proper (`proper_compile`): a document that is read without an error has shaped definitions, and
    every node that a shaped expression is made into is one that a document can spell. Faults make no difference, as
    what stands for a faulty expression is proper as well. -/

namespace Abnf

/-! ### Values -/

namespace NumVal

theorem le_of_codePoint {base : Nat} {digits : List Char} {v : UInt32} (h : codePoint base digits = .ok v) :
    v ≤ maxCodePoint := by
  have hn := number?_of_codePoint h
  rw [codePoint, hn] at h
  dsimp only at h
  split at h
  · exact UInt32.le_iff_toNat_le.mpr ‹_›
  · cases h

theorem isProper_of_range {base : Nat} {lo hi : List Char} {n : Node} (h : range base lo hi = .ok n) :
    n.isProper = true := by
  obtain ⟨l, -, h⟩ := bind_eq_ok.mp h
  obtain ⟨u, hu, h⟩ := bind_eq_ok.mp h
  split at h
  · rename_i hle
    cases h
    rw [Node.isProper, decide_eq_true hle, decide_eq_true (le_of_codePoint hu)]
    rfl
  · cases h

theorem isProper_of_dotted {values : List UInt32} {n : Node} (h : dotted values = .ok n) : n.isProper = true := by
  unfold dotted at h
  split at h
  · cases h
    rfl
  · obtain ⟨chars, -, h⟩ := bind_eq_ok.mp h
    cases h
    rfl

theorem isProper_of_node {text : String} {n : Node} (h : node text = .ok n) : n.isProper = true := by
  unfold node at h
  split at h
  · split at h
    · cases h
    · split at h
      · split at h
        · split at h
          · cases h
          · exact isProper_of_range h
        · cases h
      · split at h
        · obtain ⟨values, -, h⟩ := bind_eq_ok.mp h
          exact isProper_of_dotted h
        · obtain ⟨v, hv, h⟩ := bind_eq_ok.mp h
          cases h
          rw [Node.char, Node.isProper, decide_eq_true (UInt32.le_refl v), decide_eq_true (le_of_codePoint hv)]
          rfl
  · cases h

end NumVal

namespace Assembly

/-! ### Expressions -/

section
variable {s : State}

theorem proper_add (hs : s.grammar.Proper) {n : Node} (hn : n.isProper = true) : (s.add n).2.grammar.Proper :=
  hs.addNode hn

theorem proper_numeric (hs : s.grammar.Proper) (w : Word) : (numeric w s).2.grammar.Proper := by
  unfold numeric
  split
  · exact hs.addNode (NumVal.isProper_of_node ‹_›)
  · exact hs.addNode rfl

theorem proper_reference (hs : s.grammar.Proper) {w : Word} (hw : isName w.text = true) :
    (reference w s).2.grammar.Proper := hs.addRef hw

theorem proper_blanks (hs : s.grammar.Proper) : (blanks s).2.grammar.Proper := by
  unfold blanks
  split
  · exact hs
  · exact (((hs.addNode rfl).addNode rfl).addNode rfl).addNode rfl

/-- The bounds on the elements behind the first one are in order. --/
theorem all_rest {min : UInt32} {max : Option UInt32} (h : ∀ m ∈ max, min ≤ m) (hne : max ≠ some 0) :
    (max.map (· - 1)).all ((if min = 0 then 0 else min - 1) ≤ ·) = true := by
  cases max with
  | none => rfl
  | some m =>
    have hle := UInt32.le_iff_toNat_le.mp (h m rfl)
    have hm : (m - 1).toNat = m.toNat - 1 := toNat_pred fun h0 => hne (congrArg some h0)
    refine decide_eq_true (UInt32.le_iff_toNat_le.mpr ?_)
    rw [toNat_rest, hm]
    exact Nat.sub_le_sub_right hle 1

theorem proper_listOf (hs : s.grammar.Proper) (i : NodeId) {b : Repeat.Bounds} (hb : ∀ m ∈ b.max, b.min ≤ m) :
    (listOf i b s).2.grammar.Proper := by
  unfold listOf
  split
  · exact hs.addNode rfl
  · rename_i hne
    have hrest := all_rest hb hne
    dsimp only
    generalize (if b.min = 0 then 0 else b.min - 1) = least at hrest ⊢
    split
    -- The list may be missing, or not.
    on_goal 1 => refine proper_add ?_ rfl
    all_goals
      refine proper_add ?_ rfl
      refine proper_add ?_ hrest
      refine proper_add ?_ rfl
      refine proper_add ?_ rfl
      exact proper_add (proper_blanks hs) rfl

theorem proper_repeated (hs : s.grammar.Proper) (i : NodeId) (count : Option Repeat) :
    (repeated i count s).2.grammar.Proper := by
  unfold repeated
  split
  · exact hs
  · split
    · exact hs
    · rename_i b hb
      have hle := Repeat.le_of_bounds hb
      split
      · exact proper_listOf hs i hle
      · split
        · exact hs
        · refine hs.addNode (Option.all_eq_true _ _ |>.mpr fun m hm => decide_eq_true (hle m hm))

/-- A node around several nodes; where there is only one, it stands for itself. --/
theorem proper_collapse {out : List NodeId × State} {node : List NodeId → Node} (h : out.2.grammar.Proper)
    (hnode : (node out.1).isProper = true) : (match out with
      | ([i], s) => (i, s)
      | (is, s) => s.add (node is)).2.grammar.Proper := by
  split
  · exact h
  · exact h.addNode hnode

mutual

/-- What a shaped expression is made into is proper. --/
theorem proper_expr : ∀ (e : Expr) {s : State}, e.Shaped → s.grammar.Proper → (expr e s).2.grammar.Proper
  | .alternation _ es, s, h, hs => by
    obtain ⟨hproper, hlength⟩ := proper_exprs es h.2 hs
    rw [expr]
    exact proper_collapse hproper (decide_eq_true (hlength.symm ▸ h.1))
  | .concatenation _ es, s, h, hs => by
    obtain ⟨hproper, hlength⟩ := proper_exprs es h.2 hs
    rw [expr]
    exact proper_collapse hproper (decide_eq_true (hlength.symm ▸ h.1))
  | .repetition _ _ none, s, _, hs => hs.addNode rfl
  | .repetition _ count (some e), s, h, hs => by
    have he := proper_expr e (s := s) h hs
    exact proper_repeated he _ count
  | .ref w, s, h, hs => proper_reference hs h
  | .str w, s, _, hs => hs.addNode rfl
  | .num w, s, _, hs => proper_numeric hs w
  | .prose w, s, _, hs => hs.addNode rfl
  | .group _ none, s, _, hs => hs.addNode rfl
  | .group _ (some e), s, h, hs => by
    have he := proper_expr e (s := s) h hs
    rw [expr]
    dsimp only
    split
    · exact he.addNode rfl
    · exact he
  | .optional _ none, s, _, hs => (hs.addNode rfl).addNode rfl
  | .optional _ (some e), s, h, hs => by
    have he := proper_expr e (s := s) h hs
    exact he.addNode rfl

theorem proper_exprs : ∀ (es : List Expr) {s : State}, Expr.ShapedAll es → s.grammar.Proper →
    (exprs es s).2.grammar.Proper ∧ (exprs es s).1.length = es.length
  | [], s, _, hs => ⟨hs, rfl⟩
  | e :: es, s, ⟨h, hes⟩, hs => by
    obtain ⟨hproper, hlength⟩ := proper_exprs es hes (proper_expr e h hs)
    exact ⟨hproper, congrArg (· + 1) hlength⟩

end

/-! ### Definitions -/

theorem proper_extend (o : CompileOptions) (hs : s.grammar.Proper) (w : Word) (i : NodeId) :
    (extend o w i s).grammar.Proper := by
  unfold extend
  split
  · split
    · exact hs.extend ‹_›
    · exact hs
  · split <;> exact hs

theorem proper_define (o : CompileOptions) (hs : s.grammar.Proper) {w : Word} (hw : isName w.text = true)
    (sign : DefinedAs) (i : NodeId) : (define o w sign i s).grammar.Proper := by
  unfold define
  split
  · exact hs
  · dsimp only
    split <;> exact hs.define hw i

theorem proper_definition (o : CompileOptions) (hs : s.grammar.Proper) {d : Definition} (hd : d.Shaped) :
    (definition o s d).grammar.Proper := by
  unfold definition
  split
  · rename_i name sign body hname _ hbody
    have hexpr := proper_expr body (hd.body body hbody) hs
    dsimp only
    split
    · exact proper_extend o hexpr name _
    · exact proper_define o hexpr (hd.name name hname) sign _
  · exact hs

theorem proper_definitions (o : CompileOptions) : ∀ {ds : List Definition} {s : State}, s.grammar.Proper →
    (∀ d ∈ ds, d.Shaped) → (ds.foldl (definition o) s).grammar.Proper
  | [], _, hs, _ => hs
  | d :: _, s, hs, hds => by
    obtain ⟨hd, hds⟩ := List.forall_mem_cons.mp hds
    exact proper_definitions o (s := definition o s d) (proper_definition o hs hd) hds

theorem proper_extendBase (hs : s.grammar.Proper) (x : Extension) : (extendBase s x).grammar.Proper := by
  unfold extendBase
  split
  · exact hs
  · split
    · exact hs.extend ‹_›
    · exact hs

theorem proper_extensions : ∀ {xs : List Extension} {s : State}, s.grammar.Proper →
    (xs.foldl extendBase s).grammar.Proper
  | [], _, hs => hs
  | x :: _, s, hs => proper_extensions (s := extendBase s x) (proper_extendBase hs x)

theorem proper_drawn (o : CompileOptions) {ds : List Definition} (hds : ∀ d ∈ ds, d.Shaped) :
    (drawn o ds).grammar.Proper := by
  have hinitial : (initial o ds).grammar.Proper := by
    refine (Grammar.Proper.empty o.name).declareAll fun name hname => ?_
    obtain ⟨d, hd, h⟩ := List.mem_filterMap.mp hname
    obtain ⟨w, hw, rfl⟩ := Option.map_eq_some_iff.mp h
    exact (hds d hd).name w hw
  exact proper_definitions o hinitial hds

/-- The grammar of a document with shaped definitions is proper, if its base is. --/
theorem proper_document {o : CompileOptions} {ds : List Definition} (hb : ∀ base, o.base = some base → base.Proper)
    (hds : ∀ d ∈ ds, d.Shaped) : (document o ds).1.Proper := by
  have hdrawn := proper_drawn o hds
  rw [(document_eq o ds).1]
  refine proper_extensions ?_
  unfold withBase
  split
  · exact hdrawn.includeBase (hb _ ‹_›)
  · exact hdrawn

end

end Assembly

/-- What is compiled is proper, if its base is. --/
theorem proper_compile {source : String} {o : CompileOptions} {c : Compilation} (hc : compile source o = .ok c)
    (hb : ∀ base, o.base = some base → base.Proper) : c.grammar.Proper := by
  rw [(compile_eq_ok hc).1]
  exact (Assembly.proper_document hb (shaped_definitions (read_of_compile hc))).optimize

end Abnf
