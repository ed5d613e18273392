import Abnf.Proofs.Compile.Values
import Abnf.Proofs.Grammar.Meaning

/-! The node that an expression is made into reads what the expression does (`lowers_expr`), unless a fault was
    found: every fault is told of, and nothing told is ever taken back. Making a node adds to the grammar
    only, so what was said of older nodes stays true (`State.Steps`). -/

namespace Abnf
namespace Assembly

namespace State

/-- No fault was found. --/
def Clean (s : State) : Prop := Diagnostic.hasErrors s.diagnostics = false

/-- A node has a meaning, unless a fault was found. --/
def Holds (input : ByteArray) (s : State) (i : NodeId) (f : Meaning) : Prop :=
  i < s.grammar.nodes.size ∧ (s.Clean → s.grammar.Means input i f)

/-- What holds of a state at all times. --/
structure Sound (input : ByteArray) (s : State) : Prop where
  wellFormed : s.grammar.WellFormed
  blanks : ∀ i, s.blanks = some i → s.Holds input i fun _ => Reader.blanks input

/-- One state goes on where another stopped, without a change to any rule. --/
structure Steps (s s' : State) : Prop where
  grows : s.grammar.Grows s'.grammar
  roots : ∀ r, s'.grammar.root? r = s.grammar.root? r
  definitions : s'.definitions = s.definitions
  extensions : s'.extensions = s.extensions
  clean : s'.Clean → s.Clean

section
variable {input : ByteArray} {s s' s'' : State} {i : NodeId} {f : Meaning}

theorem Steps.refl (s : State) : s.Steps s := ⟨.refl _, fun _ => rfl, rfl, rfl, id⟩

theorem Steps.trans (h₁ : s.Steps s') (h₂ : s'.Steps s'') : s.Steps s'' where
  grows := h₁.grows.trans h₂.grows
  roots r := (h₂.roots r).trans (h₁.roots r)
  definitions := h₂.definitions.trans h₁.definitions
  extensions := h₂.extensions.trans h₁.extensions
  clean h := h₁.clean (h₂.clean h)

theorem Holds.later (h : s.Holds input i f) (hs : s.Steps s') : s'.Holds input i f :=
  ⟨Nat.lt_of_lt_of_le h.1 hs.grows.size_nodes_le, fun hc => (h.2 (hs.clean hc)).grow hs.grows⟩

theorem means_all {is : List NodeId} {fs : List Meaning} (h : List.Forall₂ (s.Holds input) is fs) (hc : s.Clean) :
    List.Forall₂ (s.grammar.Means input) is fs :=
  h.imp fun _ _ hi => hi.2 hc

theorem lt_of_holds_all {is : List NodeId} {fs : List Meaning} (h : List.Forall₂ (s.Holds input) is fs) :
    ∀ i ∈ is, i < s.grammar.nodes.size := by
  induction h with
  | nil => exact nofun
  | cons hi _ ih =>
    intro j hj
    rcases List.mem_cons.mp hj with rfl | hj
    · exact hi.1
    · exact ih j hj

/-! ### Faults -/

theorem not_clean_tell (s : State) {d : Diagnostic} (hd : d.isError = true) : ¬(s.tell d).Clean := by
  unfold Clean tell Diagnostic.hasErrors
  rw [List.any_append, List.any_cons, hd]
  simp

theorem steps_tell (s : State) (d : Diagnostic) : s.Steps (s.tell d) where
  grows := .refl _
  roots _ := rfl
  definitions := rfl
  extensions := rfl
  clean h := by
    unfold Clean tell Diagnostic.hasErrors at h
    rw [List.any_append, Bool.or_eq_false_iff] at h
    exact h.1

theorem Sound.tell (hs : s.Sound input) (d : Diagnostic) : (s.tell d).Sound input :=
  ⟨hs.wellFormed, fun i hi => (hs.blanks i hi).later (steps_tell s d)⟩

end
end State

open State

/-- What comes of a state that a node was made in: an older state goes on, and the node has a meaning. --/
structure Lowers (input : ByteArray) (s : State) (out : NodeId × State) (f : Meaning) : Prop where
  steps : s.Steps out.2
  sound : out.2.Sound input
  holds : out.2.Holds input out.1 f

/-- What the node of a string reads: the text that is taken out of it, in any case unless it is found to be exact. --/
def stringReader (input : ByteArray) (text : String) : Reader :=
  Reader.text input (unquote text).2 (String.ofList (unquote text).1)

section
variable {input : ByteArray} {s s' : State} {i : NodeId} {f : Meaning}

theorem Lowers.after {out : NodeId × State} (h : Lowers input s' out f) (hs : s.Steps s') : Lowers input s out f :=
  ⟨hs.trans h.steps, h.sound, h.holds⟩

/-! ### Single nodes -/

/-- A node is added that has a meaning in every grammar that goes on from here. --/
theorem lowers_add (hs : s.Sound input) {n : Node} (hparts : ∀ c ∈ n.children, c < s.grammar.nodes.size)
    (hrules : ∀ r ∈ n.rules, r < s.grammar.slots.size)
    (hm : s.Clean → ∀ (g : Grammar) (i : NodeId), s.grammar.Grows g → g.nodes[i]? = some n → g.Means input i f) :
    Lowers input s (s.add n) f := by
  have hsteps : s.Steps (s.add n).2 := ⟨Grammar.grows_addNode s.grammar n, fun _ => rfl, rfl, rfl, id⟩
  refine ⟨hsteps, ⟨hs.wellFormed.addNode hparts hrules, fun i hi => (hs.blanks i hi).later hsteps⟩, ?_, fun hc => ?_⟩
  · exact Grammar.lt_size_addNode _ _
  · exact hm hc _ _ hsteps.grows (Grammar.getElem?_addNode_self s.grammar n)

theorem lowers_literal (hs : s.Sound input) (bs : List UInt8) (ignoreCase : Bool) :
    Lowers input s (s.add (.literal bs ignoreCase)) fun _ =>
      Reader.bytes input (if ignoreCase then Byte.small else id) bs :=
  lowers_add hs nofun nofun fun _ _ _ _ hi => Grammar.means_literal hi

theorem lowers_empty (hs : s.Sound input) : Lowers input s (s.add .empty) fun _ => Reader.empty input :=
  lowers_literal hs [] false

theorem lowers_charRange (hs : s.Sound input) (lo hi : UInt32) :
    Lowers input s (s.add (.charRange lo hi)) fun _ => Reader.value input lo.toNat hi.toNat :=
  lowers_add hs nofun nofun fun _ _ _ _ hn => Grammar.means_charRange hn

theorem lowers_text (hs : s.Sound input) (t : String) (exact : Bool) :
    Lowers input s (s.add (.text t (!exact))) fun _ => Reader.text input exact t := by
  have h := lowers_literal hs t.toByteArray.data.toList (!exact)
  cases exact with
  | true => exact h
  | false => exact h

theorem lowers_sequence (hs : s.Sound input) {is : List NodeId} {fs : List Meaning}
    (h : List.Forall₂ (s.Holds input) is fs) :
    Lowers input s (s.add (.sequence is)) fun rules => Reader.inOrder (fs.map (· rules)) :=
  lowers_add hs (lt_of_holds_all h) nofun fun hc _ _ hg hi =>
    Grammar.means_sequence hi ((means_all h hc).imp fun _ _ hm => hm.grow hg)

theorem lowers_choice (hs : s.Sound input) {is : List NodeId} {fs : List Meaning}
    (h : List.Forall₂ (s.Holds input) is fs) :
    Lowers input s (s.add (.choice is)) fun rules => Reader.firstOf (fs.map (· rules)) :=
  lowers_add hs (lt_of_holds_all h) nofun fun hc _ _ hg hi =>
    Grammar.means_choice hi ((means_all h hc).imp fun _ _ hm => hm.grow hg)

theorem lowers_fold (hs : s.Sound input) (h : s.Holds input i f) : Lowers input s (s.add (.fold i)) f :=
  lowers_add hs (fun _ hc => List.mem_singleton.mp hc ▸ h.1) nofun fun hc _ _ hg hi =>
    Grammar.means_fold hi ((h.2 hc).grow hg)

theorem lowers_repetition (hs : s.Sound input) (h : s.Holds input i f) (min : UInt32) (max : Option UInt32) :
    Lowers input s (s.add (.repetition i min max)) fun rules =>
      Reader.times input.size min.toNat (max.map UInt32.toNat) (f rules) :=
  lowers_add hs (fun _ hc => List.mem_singleton.mp hc ▸ h.1) nofun fun hc _ _ hg hi =>
    Grammar.means_repetition hi ((h.2 hc).grow hg)

theorem lowers_optional (hs : s.Sound input) (h : s.Holds input i f) :
    Lowers input s (s.add (.optional i)) fun rules => Reader.optional input (f rules) :=
  lowers_repetition hs h 0 (some 1)

/-! ### Leaves -/

theorem lowers_reference (hs : s.Sound input) (w : Word) :
    Lowers input s (reference w s) fun rules => rules w.text := by
  have hsteps : s.Steps (reference w s).2 :=
    ⟨Grammar.grows_addRef s.grammar w.text, Grammar.root?_declare s.grammar w.text, rfl, rfl, id⟩
  refine ⟨hsteps, ⟨hs.wellFormed.addRef w.text, fun i hi => (hs.blanks i hi).later hsteps⟩, ?_, fun _ => ?_⟩
  · exact Grammar.lt_size_addNode _ _
  · exact Grammar.means_ruleRef (Grammar.getElem?_addNode_self _ _) (Grammar.find?_declare s.grammar w.text)

theorem lowers_string (hs : s.Sound input) (w : Word) :
    Lowers input s (string w s) fun rules => (Expr.str w).reader input (stringReader input) rules :=
  lowers_text hs _ _

/-- What a fault leaves behind may mean anything. --/
theorem lowers_of_fault {out : NodeId × State} {d : Diagnostic} (hd : d.isError = true)
    (h : Lowers input (s.tell d) out f) (m : Meaning) : Lowers input s out m :=
  ⟨(steps_tell s d).trans h.steps, h.sound, h.holds.1, fun hc => absurd (h.steps.clean hc) (not_clean_tell s hd)⟩

theorem lowers_numeric (hs : s.Sound input) (w : Word) :
    Lowers input s (numeric w s) fun _ => NumVal.reader input w.text := by
  unfold numeric
  split
  · rename_i n hn
    rcases NumVal.leaf_of_node hn input with ⟨bs, rfl, hread⟩ | ⟨lo, hi, rfl, hread⟩
    · rw [hread]
      exact lowers_literal hs bs false
    · rw [hread]
      exact lowers_charRange hs lo hi
  · exact lowers_of_fault rfl (lowers_empty (hs.tell _)) _

theorem lowers_prose (hs : s.Sound input) (w : Word) : Lowers input s (prose w s) fun _ => Reader.never :=
  lowers_of_fault rfl (lowers_empty (hs.tell _)) _

/-! ### Repeats -/

theorem lowers_blanks (hs : s.Sound input) : Lowers input s (blanks s) fun _ => Reader.blanks input := by
  unfold blanks
  split
  · rename_i i hi
    exact ⟨.refl s, hs, hs.blanks i hi⟩
  · have space := lowers_charRange hs 0x20 0x20
    have tab := lowers_charRange space.sound 0x09 0x09
    have either := lowers_choice tab.sound (.cons (space.holds.later tab.steps) (.cons tab.holds .nil))
    have many := lowers_repetition either.sound either.holds 0 none
    have hsteps := space.steps.trans (tab.steps.trans (either.steps.trans many.steps))
    -- The node is kept for the lists to come.
    have hkept := many.holds
    refine ⟨⟨hsteps.grows, hsteps.roots, hsteps.definitions, hsteps.extensions, hsteps.clean⟩,
      ⟨many.sound.wellFormed, ?_⟩, hkept⟩
    rintro i ⟨⟩
    exact hkept

theorem toNat_pred {n : UInt32} (h : n ≠ 0) : (n - 1).toNat = n.toNat - 1 := by
  refine UInt32.toNat_sub_of_le _ _ ?_
  rw [UInt32.le_iff_toNat_le]
  have hpos : n.toNat ≠ 0 := fun h0 => h (UInt32.toNat_inj.mp h0)
  exact Nat.pos_of_ne_zero hpos

theorem toNat_eq_zero {n : UInt32} : n.toNat = 0 ↔ n = 0 := UInt32.toNat_inj (b := 0)

theorem map_toNat_eq_zero {max : Option UInt32} : max.map UInt32.toNat = some 0 ↔ max = some 0 := by
  cases max with
  | none => simp
  | some m => rw [Option.map_some, Option.some.injEq, Option.some.injEq, toNat_eq_zero]

/-- The bounds on the elements behind the first one. --/
theorem toNat_rest (min : UInt32) : (if min = 0 then 0 else min - 1).toNat = min.toNat - 1 := by
  by_cases h : min = 0
  · rw [if_pos h, h]
    rfl
  · rw [if_neg h, toNat_pred h]

theorem map_toNat_rest {max : Option UInt32} (h : max ≠ some 0) :
    (max.map (· - 1)).map UInt32.toNat = (max.map UInt32.toNat).map (· - 1) := by
  cases max with
  | none => rfl
  | some m => exact congrArg some (toNat_pred fun h0 => h (congrArg some h0))

theorem lowers_listOf (hs : s.Sound input) (h : s.Holds input i f) (b : Repeat.Bounds) :
    Lowers input s (listOf i b s) fun rules =>
      Reader.list input b.min.toNat (b.max.map UInt32.toNat) (f rules) := by
  unfold listOf Reader.list
  by_cases hnone : b.max = some 0
  · rw [if_pos hnone]
    simp only [if_pos (map_toNat_eq_zero.mpr hnone)]
    exact lowers_empty hs
  · rw [if_neg hnone]
    simp only [if_neg (mt map_toNat_eq_zero.mp hnone)]
    have ows := lowers_blanks hs
    have comma := lowers_text ows.sound "," false
    have hows := ows.holds.later comma.steps
    have hi := (h.later ows.steps).later comma.steps
    have unit := lowers_sequence comma.sound (.cons hows (.cons comma.holds (.cons hows (.cons hi .nil))))
    have folded := lowers_fold unit.sound unit.holds
    have tail := lowers_repetition folded.sound folded.holds (if b.min = 0 then 0 else b.min - 1) (b.max.map (· - 1))
    rw [toNat_rest, map_toNat_rest hnone] at tail
    have hi := ((hi.later unit.steps).later folded.steps).later tail.steps
    have whole := lowers_sequence tail.sound (.cons hi (.cons tail.holds .nil))
    have hsteps := ows.steps.trans (comma.steps.trans (unit.steps.trans (folded.steps.trans tail.steps)))
    by_cases hzero : b.min = 0
    · simp only [if_pos (toNat_eq_zero.mpr hzero)]
      have all := lowers_optional whole.sound whole.holds
      have hall := all.after (hsteps.trans whole.steps)
      rw [if_pos hzero]
      exact hall
    · simp only [if_neg (mt toNat_eq_zero.mp hzero)]
      have hall := whole.after hsteps
      rw [if_neg hzero]
      exact hall

/-- An element under a repeat; once and no more is the element itself. --/
theorem lowers_repeated (hs : s.Sound input) (h : s.Holds input i f) (r : Repeat) :
    Lowers input s (repeated i (some r) s) fun rules => r.reader input (f rules) := by
  unfold repeated
  dsimp only
  cases hb : r.bounds with
  | error d =>
    refine lowers_of_fault (Repeat.isError_of_bounds hb) ⟨.refl _, hs.tell d, h.later (steps_tell s d)⟩ _
  | ok b =>
    dsimp only
    obtain ⟨hleast, hmost⟩ := Repeat.bounds_eq hb
    have hread : (fun rules => r.reader input (f rules)) = fun rules =>
        if r.op = .list then Reader.list input b.min.toNat (b.max.map UInt32.toNat) (f rules)
        else Reader.times input.size b.min.toNat (b.max.map UInt32.toNat) (f rules) := by
      rw [hleast, hmost]
      funext rules
      unfold Repeat.reader
      cases r.op <;> rfl
    rw [hread]
    by_cases hlist : r.op = .list
    · simp only [if_pos hlist]
      exact lowers_listOf hs h b
    · simp only [if_neg hlist]
      by_cases hone : b = ⟨1, some 1⟩
      · rw [if_pos hone, hone]
        refine ⟨.refl s, hs, ?_⟩
        simp only [Option.map_some, UInt32.toNat_one, Reader.times_one]
        exact h
      · rw [if_neg hone]
        exact lowers_repetition hs h b.min b.max

/-! ### Expressions -/

/-- A node around several nodes; where there is only one, it stands for itself. --/
theorem lowers_collapse {es : List Expr} {out : List NodeId × State} {node : List NodeId → Node}
    {reader : List Reader → Reader} (hone : ∀ f, reader [f] = f) (hsteps : s.Steps out.2) (hsound : out.2.Sound input)
    (hall : List.Forall₂ (out.2.Holds input) out.1 (es.map fun e rules => e.reader input (stringReader input) rules))
    (hadd : Lowers input out.2 (out.2.add (node out.1)) fun rules =>
      reader (es.map fun e => e.reader input (stringReader input) rules)) :
    Lowers input s (match out with
      | ([i], s) => (i, s)
      | (is, s) => s.add (node is)) fun rules => reader (es.map fun e => e.reader input (stringReader input) rules) := by
  split
  · rcases es with _ | ⟨e, _ | ⟨e', es⟩⟩
    · cases hall
    · obtain ⟨he, -⟩ := List.forall₂_cons.mp hall
      refine ⟨hsteps, hsound, ?_⟩
      simpa only [List.map_cons, List.map_nil, hone] using he
    · obtain ⟨-, hrest⟩ := List.forall₂_cons.mp hall
      cases hrest
  · exact hadd.after hsteps

mutual

/-- An expression is made into a node that reads what the expression does. --/
theorem lowers_expr : ∀ (e : Expr) {s : State}, s.Sound input →
    Lowers input s (expr e s) fun rules => e.reader input (stringReader input) rules
  | .alternation span es, s, hs => by
    obtain ⟨hsteps, hsound, hall⟩ := lowers_exprs es hs
    have hchoice := lowers_choice hsound hall
    simp only [List.map_map, Function.comp_def] at hchoice
    simp only [expr, Expr.reader, Expr.readers_eq_map]
    exact lowers_collapse Reader.firstOf_singleton hsteps hsound hall hchoice
  | .concatenation span es, s, hs => by
    obtain ⟨hsteps, hsound, hall⟩ := lowers_exprs es hs
    have hsequence := lowers_sequence hsound hall
    simp only [List.map_map, Function.comp_def] at hsequence
    simp only [expr, Expr.reader, Expr.readers_eq_map]
    exact lowers_collapse Reader.inOrder_singleton hsteps hsound hall hsequence
  | .repetition _ _ none, s, hs => lowers_empty hs
  | .repetition _ none (some e), s, hs => lowers_expr e hs
  | .repetition _ (some r) (some e), s, hs => by
    have h := lowers_expr e hs
    exact (lowers_repeated h.sound h.holds r).after h.steps
  | .ref w, s, hs => lowers_reference hs w
  | .str w, s, hs => lowers_string hs w
  | .num w, s, hs => lowers_numeric hs w
  | .prose w, s, hs => lowers_prose hs w
  | .group _ none, s, hs => lowers_empty hs
  | .group _ (some e), s, hs => by
    have h := lowers_expr e hs
    change Lowers input s (if keepsBrackets e then (expr e s).2.add (.fold (expr e s).1) else expr e s) _
    split
    · exact (lowers_fold h.sound h.holds).after h.steps
    · exact h
  | .optional _ none, s, hs => by
    have h := lowers_empty hs
    exact (lowers_optional h.sound h.holds).after h.steps
  | .optional _ (some e), s, hs => by
    have h := lowers_expr e hs
    exact (lowers_optional h.sound h.holds).after h.steps

theorem lowers_exprs : ∀ (es : List Expr) {s : State}, s.Sound input →
    s.Steps (exprs es s).2 ∧ (exprs es s).2.Sound input ∧
      List.Forall₂ ((exprs es s).2.Holds input) (exprs es s).1
        (es.map fun e rules => e.reader input (stringReader input) rules)
  | [], s, hs => ⟨.refl s, hs, .nil⟩
  | e :: es, s, hs => by
    have h := lowers_expr e hs
    obtain ⟨hsteps, hsound, hall⟩ := lowers_exprs es h.sound
    exact ⟨h.steps.trans hsteps, hsound, .cons (h.holds.later hsteps) hall⟩

end

end
end Assembly
end Abnf
