import Abnf.Proofs.Compile.Patterns
import Abnf.Proofs.Match.Pruning
import Abnf.Proofs.Match.Reading

/-! What lists match. A list finds elements one after the other, and goes on behind an element just if a comma comes next,
    with blanks around it, and another element after that (`Listing.Found`). The nodes that a list is made of find the
    same (`evaluate_listOf`): what a last attempt has read when it comes to nothing, blanks and a comma, is given
    back, so a match ends with its last element and has logged what its elements did. The parts are gone through in
    their order: blanks, the unit of a comma and an element, the units of the tail, and the whole. -/

namespace Abnf
namespace Listing

open Match

/-! ### What a list finds -/

def isSpace (b : UInt8) : Bool := b == 0x20 || b == 0x09

/-- Where the blanks from a position on end. --/
def skipBlanks (input : ByteArray) (pos : Nat) : Nat := pos + ((input.data.toList.drop pos).takeWhile isSpace).length

/-- Where another element may begin: behind a comma, which may have blanks on both sides. --/
def afterComma? (input : ByteArray) (pos : Nat) : Option Nat :=
  if input[skipBlanks input pos]? = some 0x2C then some (skipBlanks input (skipBlanks input pos + 1)) else none

/-- An element that a list has found. --/
structure Item where
  start : Nat
  stop : Nat
  log : Log

/-- The elements that a list finds, and the rule without a definition that it arrives at, if it does. No more than `left`
    elements are wanted, and the first of them may begin at `place`, if there is a place for it. --/
inductive Found (σ : Setting) (element : NodeId) : (left place : Option Nat) → List Item → Option RuleId → Prop where
  | full {place : Option Nat} : Found σ element (some 0) place [] none
  | noPlace {left : Option Nat} : Found σ element left none [] none
  | noMatch {left : Option Nat} {start : Nat} (hleft : left ≠ some 0)
      (h : Yields σ (.node element) start .noMatch) : Found σ element left (some start) [] none
  | undefined {left : Option Nat} {start : Nat} {r : RuleId} (hleft : left ≠ some 0)
      (h : Yields σ (.node element) start (.undefined r)) : Found σ element left (some start) [] (some r)
  | next {left fault : Option Nat} {start stop : Nat} {l : Log} {items : List Item} (hleft : left ≠ some 0)
      (h : Yields σ (.node element) start (.matched stop l))
      (hs : Found σ element (left.map (· - 1)) (afterComma? σ.input stop) items fault) :
      Found σ element left (some start) (⟨start, stop, l⟩ :: items) fault

/-- A list that wants no more than `left` elements, the first of them at `place`, tries one at `start`. --/
inductive Tries (σ : Setting) (element : NodeId) : (left : Option Nat) → (place start : Nat) → Prop where
  | here {left : Option Nat} {place : Nat} (hleft : left ≠ some 0) : Tries σ element left place place
  | behind {left : Option Nat} {place stop next start : Nat} {l : Log} (hleft : left ≠ some 0)
      (h : Yields σ (.node element) place (.matched stop l)) (hplace : afterComma? σ.input stop = some next)
      (hs : Tries σ element (left.map (· - 1)) next start) : Tries σ element left place start

/-- Where a list ends that begins at a position: behind its last element. --/
def stopOf (pos : Nat) (items : List Item) : Nat := (items.getLast?.map Item.stop).getD pos

/-- What the elements have logged, in their order. --/
def logOf (items : List Item) : Log := items.foldr (fun item log => item.log ++ log) #[]

/-- The answer of a list that needs `min` elements. --/
def answerOf (min pos : Nat) (items : List Item) : Option RuleId → Answer
  | some r => .undefined r
  | none => if items.length < min then .noMatch else .matched (stopOf pos items) (logOf items)

theorem stopOf_cons (pos : Nat) (item : Item) (items : List Item) :
    stopOf pos (item :: items) = stopOf item.stop items := by
  rw [stopOf, stopOf, List.getLast?_cons]
  cases items.getLast? <;> rfl

theorem answerOf_nil (min pos : Nat) : answerOf min pos [] none = .settle min 0 pos := rfl

/-- An element in front of others counts as one. --/
theorem answerOf_cons (min pos : Nat) (item : Item) (items : List Item) (fault : Option RuleId) :
    (answerOf (min - 1) item.stop items fault).after item.log = answerOf min pos (item :: items) fault := by
  cases fault with
  | some r => rfl
  | none =>
    have hcount : items.length < min - 1 ↔ (item :: items).length < min := by
      rw [List.length_cons]
      omega
    rw [answerOf, answerOf, stopOf_cons]
    by_cases h : items.length < min - 1
    · rw [if_pos h, if_pos (hcount.mp h)]
      rfl
    · rw [if_neg h, if_neg (mt hcount.mpr h)]
      rfl

/-- A list that may be missing is one that needs no elements. --/
theorem answerOf_zero (pos : Nat) (items : List Item) (fault : Option RuleId) :
    (if answerOf 1 pos items fault = .noMatch then .matched pos #[] else answerOf 1 pos items fault) =
      answerOf 0 pos items fault := by
  cases fault with
  | some r => rfl
  | none =>
    cases items with
    | nil => rfl
    | cons item items =>
      have hcount : ¬(item :: items).length < 1 := by simp
      rw [answerOf, answerOf, if_neg hcount, if_neg (Nat.not_lt_zero _)]
      exact if_neg nofun

section
variable {σ : Setting} {element : NodeId} {left place fault : Option Nat} {items : List Item}

/-- What a list finds is settled by what its element does where. --/
theorem Found.unique (h : Found σ element left place items fault) : ∀ {items' : List Item} {fault' : Option RuleId},
    Found σ element left place items' fault' → items' = items ∧ fault' = fault := by
  induction h with
  | full =>
    intro items' fault' h'
    cases h' with
    | full | noPlace => exact ⟨rfl, rfl⟩
    | noMatch hleft | undefined hleft | next hleft => exact absurd rfl hleft
  | noPlace =>
    intro items' fault' h'
    cases h' <;> exact ⟨rfl, rfl⟩
  | noMatch hleft h =>
    intro items' fault' h'
    cases h' with
    | full => exact absurd rfl hleft
    | noMatch => exact ⟨rfl, rfl⟩
    | undefined _ h' | next _ h' => cases h.unique h'
  | undefined hleft h =>
    intro items' fault' h'
    cases h' with
    | full => exact absurd rfl hleft
    | undefined _ h' =>
      cases h.unique h'
      exact ⟨rfl, rfl⟩
    | noMatch _ h' | next _ h' => cases h.unique h'
  | next hleft h _ ih =>
    intro items' fault' h'
    cases h' with
    | full => exact absurd rfl hleft
    | noMatch _ h' | undefined _ h' => cases h.unique h'
    | next _ h' hs' =>
      cases h.unique h'
      obtain ⟨rfl, rfl⟩ := ih hs'
      exact ⟨rfl, rfl⟩

theorem Found.length_le (h : Found σ element left place items fault) : ∀ m ∈ left, items.length ≤ m := by
  induction h with
  | full | noPlace | noMatch | undefined => exact fun m _ => Nat.zero_le m
  | next hleft _ _ ih =>
    rintro m rfl
    have := ih (m - 1) rfl
    have hm : m ≠ 0 := fun h => hleft (congrArg some h)
    rw [List.length_cons]
    omega

end

/-! ### Blanks -/

section
variable (input : ByteArray) (pos : Nat)

theorem le_skipBlanks : pos ≤ skipBlanks input pos := Nat.le_add_right _ _

variable {input pos}

theorem skipBlanks_of_isSpace {b : UInt8} (hb : input[pos]? = some b) (h : isSpace b = true) :
    skipBlanks input pos = skipBlanks input (pos + 1) := by
  rw [getElem?_eq_data, ← Array.getElem?_toList] at hb
  obtain ⟨hlt, rfl⟩ := List.getElem?_eq_some_iff.mp hb
  rw [skipBlanks, skipBlanks, List.drop_eq_getElem_cons hlt, List.takeWhile_cons_of_pos h, List.length_cons]
  omega

theorem skipBlanks_of_not (h : ∀ b ∈ input[pos]?, isSpace b = false) : skipBlanks input pos = pos := by
  rw [getElem?_eq_data, ← Array.getElem?_toList] at h
  rw [skipBlanks]
  rcases hrest : input.data.toList.drop pos with _ | ⟨b, bs⟩
  · rfl
  · have hb : input.data.toList[pos]? = some b := by
      rw [← List.head?_drop, hrest]
      rfl
    rw [List.takeWhile_cons_of_neg (by rw [h b hb]; exact Bool.false_ne_true), List.length_nil, Nat.add_zero]

theorem lt_of_afterComma? {start : Nat} (h : afterComma? input pos = some start) : pos < start := by
  rw [afterComma?, Option.ite_none_right_eq_some, Option.some.injEq] at h
  have h₁ := le_skipBlanks input pos
  have h₂ := le_skipBlanks input (skipBlanks input pos + 1)
  omega

theorem afterComma?_le {start : Nat} (h : afterComma? input pos = some start) : start ≤ input.size := by
  rw [afterComma?, Option.ite_none_right_eq_some, Option.some.injEq] at h
  obtain ⟨hcomma, rfl⟩ := h
  have hlt : skipBlanks input pos < input.size := (getElem?_eq_some_iff.mp hcomma).1
  have hlen := (List.takeWhile_sublist (l := input.data.toList.drop (skipBlanks input pos + 1)) isSpace).length_le
  have hsize : input.data.toList.length = input.size := Array.length_toList
  rw [List.length_drop, hsize] at hlen
  rw [skipBlanks]
  omega

end

section
variable {σ : Setting}

/-- An alternative that matches is not passed over, neither without first sets nor with those of the grammar. --/
theorem admits_of_yields (hsets : ∀ sets, σ.grammar.firstSets = some sets → sets = σ.grammar.computeFirstSets)
    {n : NodeId} {pos stop : Nat} {l : Log} (h : Yields σ (.node n) pos (.matched stop l)) : admits σ pos n = true := by
  cases hs : σ.grammar.firstSets with
  | none => rw [admits, hs]
  | some sets =>
    have hclosed : σ.grammar.Closed (Grammar.setOf sets) := hsets sets hs ▸ Grammar.closed_computeFirstSets σ.grammar
    have hpruned : σ.pruned sets = σ := by rw [Setting.pruned, ← hs]
    exact hpruned ▸ admits_of_matched hclosed h

theorem yields_choice_of_noMatch {n : NodeId} {ns : List NodeId} {pos : Nat} {a : Answer}
    (h : Yields σ (.node n) pos .noMatch) (hs : Yields σ (.choice ns none) pos a) :
    Yields σ (.choice (n :: ns) none) pos a := by
  cases hn : admits σ pos n with
  | true => exact .choiceFail hn h hs
  | false => exact .choiceSkip hn hs

/-- A character of one byte. --/
theorem yields_byte {i : NodeId} {v : UInt32} (hi : σ.grammar.nodes[i]? = some (.charRange v v)) {b : UInt8}
    (hb : b.toUInt32 = v) (pos : Nat) :
    Yields σ (.node i) pos (if σ.input[pos]? = some b then .matched (pos + 1) #[] else .noMatch) := by
  have h : Yields σ (.node i) pos (.leaf (charRange? σ.input v v pos)) := .charRange hi
  rw [charRange?_byte σ.input hb] at h
  split at h
  · rwa [if_pos ‹_›]
  · rwa [if_neg ‹_›]

variable (hsets : ∀ sets, σ.grammar.firstSets = some sets → sets = σ.grammar.computeFirstSets)
  {stands : String → RuleId → Prop}

include hsets

/-- The node for one blank. --/
theorem yields_space {i : NodeId}
    (hu : σ.grammar.Unfolds stands (.choice [.charRange 0x20 0x20, .charRange 0x09 0x09]) i) {pos : Nat} :
    (∀ b, σ.input[pos]? = some b → isSpace b = true → Yields σ (.node i) pos (.matched (pos + 1) #[])) ∧
      ((∀ b ∈ σ.input[pos]?, isSpace b = false) → Yields σ (.node i) pos .noMatch) := by
  obtain ⟨ns, hi, hns⟩ := hu
  match ns, hns with
  | [space, tab], ⟨hspace, htab, _⟩ =>
    have h₁ := yields_byte (b := 0x20) hspace rfl pos
    have h₂ := yields_byte (b := 0x09) htab rfl pos
    constructor
    · intro b hb hblank
      refine .choice hi ?_
      rw [isSpace, Bool.or_eq_true, beq_iff_eq, beq_iff_eq] at hblank
      rcases hblank with rfl | rfl
      · rw [if_pos hb] at h₁
        exact .choiceTake (admits_of_yields hsets h₁) h₁ (Nat.lt_succ_self pos)
      · rw [if_neg (by rw [hb]; decide)] at h₁
        rw [if_pos hb] at h₂
        exact yields_choice_of_noMatch h₁ (.choiceTake (admits_of_yields hsets h₂) h₂ (Nat.lt_succ_self pos))
    · intro hblank
      have hs : σ.input[pos]? ≠ some 0x20 := fun h => absurd (hblank 0x20 h) (by decide)
      have ht : σ.input[pos]? ≠ some 0x09 := fun h => absurd (hblank 0x09 h) (by decide)
      rw [if_neg hs] at h₁
      rw [if_neg ht] at h₂
      exact .choice hi (yields_choice_of_noMatch h₁ (yields_choice_of_noMatch h₂ .choiceNil))

/-- The node for blanks reads all that there are. --/
theorem yields_spacing {i : NodeId} (hu : σ.grammar.Unfolds stands Assembly.spacing i) (pos : Nat) :
    Yields σ (.node i) pos (.matched (skipBlanks σ.input pos) #[]) := by
  obtain ⟨either, hi, heither⟩ := hu
  have hlast : ∀ count pos, (∀ b ∈ σ.input[pos]?, isSpace b = false) →
      Yields σ (.rounds either 0 none count) pos (.matched (skipBlanks σ.input pos) #[]) := by
    intro count pos hblank
    rw [skipBlanks_of_not hblank]
    exact .roundsFail rfl ((yields_space hsets heither).2 hblank)
  have hrounds : ∀ (bound count pos : Nat), σ.input.size - pos ≤ bound →
      Yields σ (.rounds either 0 none count) pos (.matched (skipBlanks σ.input pos) #[]) := by
    intro bound
    induction bound with
    | zero =>
      intro count pos hbound
      refine hlast count pos fun b hb => ?_
      have hlt : pos < σ.input.size := (getElem?_eq_some_iff.mp hb).1
      omega
    | succ bound ih =>
      intro count pos hbound
      by_cases hblank : ∃ b, σ.input[pos]? = some b ∧ isSpace b = true
      · obtain ⟨b, hb, hspace⟩ := hblank
        rw [skipBlanks_of_isSpace hb hspace]
        exact .roundsNext rfl ((yields_space hsets heither).1 b hb hspace) (Nat.succ_ne_self pos)
          (ih (count + 1) (pos + 1) (by omega))
      · exact hlast count pos fun b hb => Bool.eq_false_iff.mpr fun hspace => hblank ⟨b, hb, hspace⟩
  exact .repetition hi (hrounds (σ.input.size - pos) 0 pos (Nat.le_refl _))

end

/-! ### The nodes of a list -/

/-- The nodes of a list that begins with an element, whether it may be missing or not. --/
inductive Composed (g : Grammar) (element : NodeId) (b : Repeat.Bounds) (whole : NodeId) : Prop where
  | intro {blanks comma unit folded tail : NodeId} (hblanks : g.Unfolds g.Stands Assembly.spacing blanks)
      (hcomma : g.nodes[comma]? = some (.text "," true))
      (hunit : g.nodes[unit]? = some (.sequence [blanks, comma, blanks, element]))
      (hfolded : g.nodes[folded]? = some (.fold unit))
      (htail : g.nodes[tail]? =
        some (.repetition folded (if b.min = 0 then 0 else b.min - 1) (b.max.map (· - 1))))
      (hwhole : g.nodes[whole]? = some (.sequence [element, tail]))

open Assembly in
/-- A list is composed of such nodes, unless it is to have no elements. --/
theorem listOf_composed {s : State} (hs : s.Spaced) {element : NodeId} {b : Repeat.Bounds} (hmax : b.max ≠ some 0)
    {g : Grammar} (hg : (listOf element b s).2.grammar.Grows g) : ∃ whole, Composed g element b whole ∧
      if b.min = 0 then g.nodes[(listOf element b s).1]? = some (.optional whole) else (listOf element b s).1 = whole := by
  have hadd : ∀ {s : State} {n : Node}, (s.add n).2.grammar.Grows g →
      s.grammar.Grows g ∧ g.nodes[(s.add n).1]? = some n := fun h =>
    ⟨(Grammar.grows_addNode _ _).trans h, h.nodes _ _ (Grammar.getElem?_addNode_self _ _)⟩
  have hend : ∀ {out : NodeId × State}, (out.2.grammar.Grows g → Composed g element b out.1) →
      (if b.min = 0 then out.2.add (.optional out.1) else out).2.grammar.Grows g →
      ∃ whole, Composed g element b whole ∧ if b.min = 0 then
        g.nodes[(if b.min = 0 then out.2.add (.optional out.1) else out).1]? = some (.optional whole) else
        (if b.min = 0 then out.2.add (.optional out.1) else out).1 = whole := by
    intro out hcomposed hg
    by_cases hzero : b.min = 0
    · simp only [if_pos hzero] at hg ⊢
      obtain ⟨hg, hoptional⟩ := hadd hg
      exact ⟨_, hcomposed hg, hoptional⟩
    · simp only [if_neg hzero] at hg ⊢
      exact ⟨_, hcomposed hg, rfl⟩
  unfold listOf at hg ⊢
  rw [if_neg hmax] at hg ⊢
  refine hend (fun hg => ?_) hg
  obtain ⟨hg, hwhole⟩ := hadd hg
  obtain ⟨hg, htail⟩ := hadd hg
  obtain ⟨hg, hfolded⟩ := hadd hg
  obtain ⟨hg, hunit⟩ := hadd hg
  obtain ⟨hg, hcomma⟩ := hadd hg
  exact ⟨Grammar.Unfolds.mono hg.nodes hg.stands (draws_blanks hs).has, hcomma, hunit, hfolded, htail, hwhole⟩

open Assembly in
/-- While definitions are taken up, the node for blanks, once it is there, stays the one that it is. --/
theorem spaced_definition (o : CompileOptions) {s : State} (hs : s.Spaced) (d : Definition) : (definition o s d).Spaced := by
  unfold definition
  split
  · rename_i name sign body _ _ _
    have hbody : (expr body s).2.Spaced := by
      obtain ⟨p, hp⟩ := exists_draws body
      exact (hp hs).refers.spaced
    dsimp only
    split
    · unfold extend
      split
      · cases he : (expr body s).2.grammar.extend name.text (expr body s).1 with
        | error e => exact hbody
        | ok out => exact hbody.grow (Grammar.grows_extend _ he) rfl
      · split <;> exact hbody
    · unfold define
      split
      · exact hbody
      · split <;> exact hbody.grow (Grammar.grows_define _ name.text _) rfl
  · exact hs

open Assembly in
/-- The hypothesis `s.Spaced` of `evaluate_listOf` holds of every state that lowering reaches: the node for blanks is in order
    in front of each definition of a document, and no expression in one changes that. --/
theorem spaced_definitions (o : CompileOptions) (names : List Definition) (ds : List Definition) :
    (ds.foldl (definition o) (initial o names)).Spaced := by
  have hall : ∀ (ds : List Definition) {s : State}, s.Spaced → (ds.foldl (definition o) s).Spaced := by
    intro ds
    induction ds with
    | nil => exact fun hs => hs
    | cons d ds ih => exact fun hs => ih (spaced_definition o hs d)
  exact hall ds nofun

/-! ### What the nodes match -/

section
variable {σ : Setting} {element : NodeId} {left place fault : Option Nat} {items : List Item}

theorem yields_comma {i : NodeId} (hi : σ.grammar.nodes[i]? = some (.text "," true)) (pos : Nat) :
    Yields σ (.node i) pos (if σ.input[pos]? = some 0x2C then .matched (pos + 1) #[] else .noMatch) := by
  have hlower : ∀ c : UInt8, sameByte true 0x2C c = true ↔ c = 0x2C := by
    intro c
    have hcomma : Byte.lower 0x2C = 0x2C := rfl
    rw [sameByte, if_pos rfl, beq_iff_eq, hcomma, Byte.lower]
    split
    · rename_i hc
      rw [UInt8.le_iff_toNat_le, UInt8.le_iff_toNat_le] at hc
      rw [← UInt8.toNat_inj, ← UInt8.toNat_inj, UInt8.toNat_add]
      simp only [UInt8.reduceToNat] at hc ⊢
      omega
    · exact eq_comm
  have hany : (σ.input[pos]?).any (sameByte true 0x2C) = true ↔ σ.input[pos]? = some 0x2C := by
    cases σ.input[pos]? with
    | none => simp
    | some c => rw [Option.any_some, hlower, Option.some.injEq]
  have hread : literal? σ.input ",".toByteArray.data.toList true pos = _ := literal?_byte σ.input 0x2C true pos
  have h : Yields σ (.node i) pos (.leaf (literal? σ.input ",".toByteArray.data.toList true pos)) := .literal hi
  rw [hread] at h
  simp only [hany] at h
  split at h
  · rwa [if_pos ‹_›]
  · rwa [if_neg ‹_›]

/-- The last node of a sequence decides. --/
theorem yields_last {n : NodeId} {pos : Nat} {a : Answer} (h : Yields σ (.node n) pos a) :
    Yields σ (.sequence [n]) pos a := by
  cases a with
  | matched stop l =>
    have h := Yields.sequenceCons h .sequenceNil
    rwa [Answer.after_matched, Array.append_empty] at h
  | noMatch | undefined => exact .sequenceStop h rfl

/-- A node of a sequence that matches and logs nothing. --/
theorem yields_silent {n : NodeId} {ns : List NodeId} {pos mid : Nat} {a : Answer}
    (h : Yields σ (.node n) pos (.matched mid #[])) (hs : Yields σ (.sequence ns) mid a) :
    Yields σ (.sequence (n :: ns)) pos a := by
  have h := Yields.sequenceCons h hs
  rwa [Answer.after_empty] at h

/-- What stands behind an element is tried where another element may begin, and comes to what that element does. --/
def Continues (σ : Setting) (element folded : NodeId) : Prop := ∀ pos,
  (afterComma? σ.input pos = none → Yields σ (.node folded) pos .noMatch) ∧
    ∀ start a, afterComma? σ.input pos = some start → Yields σ (.node element) start a → Yields σ (.node folded) pos a

theorem continues_unit (hsets : ∀ sets, σ.grammar.firstSets = some sets → sets = σ.grammar.computeFirstSets)
    {blanks comma unit folded : NodeId} (hblanks : σ.grammar.Unfolds σ.grammar.Stands Assembly.spacing blanks)
    (hcomma : σ.grammar.nodes[comma]? = some (.text "," true))
    (hunit : σ.grammar.nodes[unit]? = some (.sequence [blanks, comma, blanks, element]))
    (hfolded : σ.grammar.nodes[folded]? = some (.fold unit)) : Continues σ element folded := by
  intro pos
  have hfirst := yields_spacing hsets hblanks pos
  have hthen := yields_comma hcomma (skipBlanks σ.input pos)
  rw [afterComma?]
  split at hthen
  · rw [if_pos ‹_›]
    refine ⟨nofun, ?_⟩
    rintro start a ⟨⟩ h
    exact .fold hfolded (.sequence hunit (yields_silent hfirst (yields_silent hthen
      (yields_silent (yields_spacing hsets hblanks _) (yields_last h)))))
  · rw [if_neg ‹_›]
    refine ⟨fun _ => ?_, nofun⟩
    exact .fold hfolded (.sequence hunit (yields_silent hfirst (.sequenceStop hthen rfl)))

theorem all_lt_of_map_sub {max : Option Nat} {count : Nat} (h : max.map (· - count) ≠ some 0) :
    max.all (count < ·) = true := by
  cases max with
  | none => rfl
  | some m =>
    have hm : m - count ≠ 0 := fun h0 => h (congrArg some h0)
    exact decide_eq_true (by omega)

/-- Behind an element and `count` others, the tail finds what a list does. --/
theorem yields_tail {folded : NodeId} (hunit : Continues σ element folded) {min : Nat} {max : Option Nat}
    (h : Found σ element left place items fault) : ∀ {count pos : Nat}, place = afterComma? σ.input pos →
      left = max.map (· - count) → Yields σ (.rounds folded min max count) pos (answerOf (min - count) pos items fault) := by
  have hsettle : ∀ count pos, answerOf (min - count) pos [] none = .settle min count pos := by
    intro count pos
    rw [answerOf_nil, Answer.settle, Answer.settle]
    have hcount : 0 < min - count ↔ count < min := by omega
    simp only [hcount]
  induction h with
  | full =>
    intro count pos _ hleft
    rw [hsettle]
    obtain ⟨m, rfl, hm⟩ := Option.map_eq_some_iff.mp hleft.symm
    exact .roundsFull (decide_eq_false (by omega))
  | noPlace =>
    intro count pos hplace _
    rw [hsettle]
    cases hc : max.all (count < ·) with
    | true => exact .roundsFail hc ((hunit pos).1 hplace.symm)
    | false => exact .roundsFull hc
  | noMatch hleft h =>
    rintro count pos hplace rfl
    rw [hsettle]
    exact .roundsFail (all_lt_of_map_sub hleft) ((hunit pos).2 _ _ hplace.symm h)
  | undefined hleft h =>
    rintro count pos hplace rfl
    exact .roundsStop (all_lt_of_map_sub hleft) ((hunit pos).2 _ _ hplace.symm h)
  | @next left fault start stop l items hleft h _ ih =>
    rintro count pos hplace rfl
    have hround := (hunit pos).2 _ _ hplace.symm h
    have hlt := lt_of_afterComma? hplace.symm
    have hle := (h.forward _ _ rfl).1
    have hleft' : (max.map (· - count)).map (· - 1) = max.map (· - (count + 1)) := by
      rw [Option.map_map]
      rfl
    have hrest := ih rfl hleft'
    rw [← Nat.sub_sub] at hrest
    have htail := Yields.roundsNext (all_lt_of_map_sub hleft) hround (by omega) hrest
    rwa [answerOf_cons (min - count) pos ⟨start, stop, l⟩] at htail

/-- A list that begins with an element. --/
theorem yields_whole (hsets : ∀ sets, σ.grammar.firstSets = some sets → sets = σ.grammar.computeFirstSets)
    {b : Repeat.Bounds} (hmax : b.max ≠ some 0) {whole : NodeId} (hc : Composed σ.grammar element b whole) {pos : Nat}
    (h : Found σ element (b.max.map UInt32.toNat) (some pos) items fault) :
    Yields σ (.node whole) pos (answerOf (max 1 b.min.toNat) pos items fault) := by
  obtain @⟨_, _, _, folded, _, hblanks, hcomma, hunit, hfolded, htail, hwhole⟩ := hc
  refine .sequence hwhole ?_
  generalize hleft : b.max.map UInt32.toNat = left at h
  cases h with
  | full => exact absurd (Assembly.map_toNat_eq_zero.mp hleft) hmax
  | noMatch _ h =>
    have hmin : ([] : List Item).length < max 1 b.min.toNat := Nat.lt_of_lt_of_le Nat.zero_lt_one (Nat.le_max_left _ _)
    rw [answerOf, if_pos hmin]
    exact .sequenceStop h rfl
  | undefined _ h => exact .sequenceStop h rfl
  | @next _ _ start stop l items _ h hs =>
    have hleft' : left.map (· - 1) = ((b.max.map (· - 1)).map UInt32.toNat).map (· - 0) := by
      rw [Assembly.map_toNat_rest hmax, hleft, Option.map_map]
      rfl
    have hrest : Yields σ (.rounds folded (b.min.toNat - 1) ((b.max.map (· - 1)).map UInt32.toNat) 0) stop
        (answerOf (b.min.toNat - 1 - 0) stop items fault) :=
      yields_tail (continues_unit hsets hblanks hcomma hunit hfolded) hs rfl hleft'
    have hrounds := Yields.repetition htail ((Assembly.toNat_rest b.min).symm ▸ hrest)
    have hwhole := Yields.sequenceCons h (yields_last hrounds)
    have hcount : (if b.min = 0 then 0 else b.min - 1).toNat = max 1 b.min.toNat - 1 := by
      rw [Assembly.toNat_rest]
      omega
    rwa [hcount, answerOf_cons _ pos ⟨pos, stop, l⟩] at hwhole

/-- What may be missing is missing if it does not match. --/
theorem yields_optional {i n : NodeId} (hi : σ.grammar.nodes[i]? = some (.optional n)) {pos : Nat} {a : Answer}
    (h : Yields σ (.node n) pos a) : Yields σ (.node i) pos (if a = .noMatch then .matched pos #[] else a) := by
  refine .repetition hi ?_
  cases a with
  | noMatch => exact .roundsFail rfl h
  | undefined r => exact .roundsStop rfl h
  | matched stop l =>
    rw [if_neg (by exact nofun)]
    have hlog : (Answer.matched stop #[]).after l = .matched stop l := by rw [Answer.after_matched, Array.append_empty]
    by_cases hstop : stop = pos
    · subst hstop
      exact hlog ▸ .roundsEmpty rfl h
    · exact hlog ▸ .roundsNext rfl h hstop (.roundsFull rfl)

theorem Tries.le_size {start pos : Nat} (h : Tries σ element left start pos) (hle : start ≤ σ.input.size) :
    pos ≤ σ.input.size := by
  induction h with
  | here => exact hle
  | behind _ _ hplace _ ih => exact ih (afterComma?_le hplace)

/-- Where the element comes to an answer wherever it is tried, a list finds some elements. --/
theorem exists_found {left : Option Nat} {start : Nat}
    (hends : ∀ pos, Tries σ element left start pos → ∃ a, Yields σ (.node element) pos a) :
    ∃ items fault, Found σ element left (some start) items fault := by
  by_cases hleft : left = some 0
  · exact ⟨[], none, hleft ▸ .full⟩
  · obtain ⟨a, h⟩ := hends start (.here hleft)
    cases a with
    | noMatch => exact ⟨[], none, .noMatch hleft h⟩
    | undefined r => exact ⟨[], some r, .undefined hleft h⟩
    | matched stop l =>
      cases hplace : afterComma? σ.input stop with
      | none => exact ⟨_, none, .next hleft h (by rw [hplace]; exact .noPlace)⟩
      | some place =>
        have hforward := (h.forward _ _ rfl).1
        have hlt := lt_of_afterComma? hplace
        have hle := afterComma?_le hplace
        obtain ⟨items, fault, hs⟩ := exists_found fun pos hpos => hends pos (.behind hleft h hplace hpos)
        exact ⟨_, fault, .next hleft h (by rwa [hplace])⟩
termination_by σ.input.size - start

open Assembly in
/-- The node of a list answers as the elements say that the list finds. --/
theorem listOf_yields (hsets : ∀ sets, σ.grammar.firstSets = some sets → sets = σ.grammar.computeFirstSets)
    {s : State} (hs : s.Spaced) {b : Repeat.Bounds} (hb : ∀ m ∈ b.max, b.min ≤ m)
    (hg : (listOf element b s).2.grammar.Grows σ.grammar) {pos : Nat} (hpos : pos ≤ σ.input.size)
    (h : Found σ element (b.max.map UInt32.toNat) (some pos) items fault) :
    Yields σ (.node (listOf element b s).1) pos (answerOf b.min.toNat pos items fault) := by
  by_cases hmax : b.max = some 0
  · have hmin : b.min.toNat = 0 := Nat.le_zero.mp (UInt32.le_iff_toNat_le.mp (hb 0 hmax))
    have hfull : Found σ element (some 0) (some pos) items fault := by rwa [hmax] at h
    have hread : literal? σ.input [] false pos = some pos := if_pos ⟨hpos, rfl⟩
    unfold listOf at hg ⊢
    rw [if_pos hmax] at hg ⊢
    rw [hmin]
    cases hfull with
    | full =>
      have hlist : Yields σ (.node (s.add (.literal [] false)).1) pos (.leaf (literal? σ.input [] false pos)) :=
        .literal (hg.nodes _ _ (Grammar.getElem?_addNode_self _ _))
      rwa [hread] at hlist
    | noMatch hleft | undefined hleft | next hleft => exact absurd rfl hleft
  · obtain ⟨whole, hcomposed, hlist⟩ := listOf_composed hs hmax hg
    have hwhole := yields_whole hsets hmax hcomposed h
    by_cases hzero : b.min = 0
    · rw [if_pos hzero] at hlist
      have hlist := yields_optional hlist hwhole
      rw [toNat_eq_zero.mpr hzero] at hlist ⊢
      rwa [← answerOf_zero]
    · rw [if_neg hzero] at hlist
      have hmin : max 1 b.min.toNat = b.min.toNat := Nat.max_eq_right (Nat.pos_of_ne_zero (mt toNat_eq_zero.mp hzero))
      rwa [hlist, ← hmin]

end

open Assembly in
/-- A list matches its elements and nothing behind them. If the element comes to an answer wherever it is tried, the list
    finds some elements and no more than it may have, one behind a comma after the other. With enough fuel its node matches
    if they are as many as it needs, up to the end of the last, and logs behind what was logged before it just what they
    do; if they are not, it does not match, and the log stays as it was. --/
theorem evaluate_listOf {σ : Setting}
    (hsets : ∀ sets, σ.grammar.firstSets = some sets → sets = σ.grammar.computeFirstSets)
    {s : State} (hs : s.Spaced) {element : NodeId} {b : Repeat.Bounds} (hb : ∀ m ∈ b.max, b.min ≤ m)
    (hg : (listOf element b s).2.grammar.Grows σ.grammar) {pos : Nat} (hpos : pos ≤ σ.input.size)
    (hends : ∀ p, Tries σ element (b.max.map UInt32.toNat) pos p → ∃ fuel t, (evaluate σ fuel element p t).isSome = true) :
    ∃ items fault, Found σ element (b.max.map UInt32.toNat) (some pos) items fault ∧
      (∀ items' fault', Found σ element (b.max.map UInt32.toNat) (some pos) items' fault' →
        items' = items ∧ fault' = fault) ∧
      (∀ m ∈ b.max, items.length ≤ m.toNat) ∧
      ∃ fuel, ∀ fuel' ≥ fuel, ∀ t : Trail,
        Match.Shows t.log (some (answerOf b.min.toNat pos items fault)) (evaluate σ fuel' (listOf element b s).1 pos t) := by
  have hanswers : ∀ p, Tries σ element (b.max.map UInt32.toNat) pos p → ∃ a, Yields σ (.node element) p a := by
    intro p hp
    obtain ⟨fuel, t, hsome⟩ := hends p hp
    exact exists_yields hsome
  obtain ⟨items, fault, hfound⟩ := exists_found hanswers
  have hmax : ∀ m ∈ b.max, items.length ≤ m.toNat := fun m hm => hfound.length_le _ (Option.mem_map_of_mem _ hm)
  refine ⟨items, fault, hfound, fun _ _ => hfound.unique, hmax, ?_⟩
  obtain ⟨fuel, hfuel⟩ := exists_perform (listOf_yields hsets hs hb hg hpos hfound)
  refine ⟨fuel, fun fuel' hle t => ?_⟩
  have hshows := shows_evaluate σ fuel' (listOf element b s).1 pos t
  rwa [answer_mono hle hfuel] at hshows

/-- At most three elements, each a letter or nothing. The second is empty, and a comma and a letter behind the third are
    left alone. --/
theorem evaluate_listOf_three :
    let nodes : Array Node := #[.literal [0x61] true, .repetition 0 0 (some 1), .ruleRef 0]
    let s : Assembly.State := ⟨⟨"lists", nodes, #[⟨"x", some 1⟩], none⟩, [], [], [], [], none⟩
    let b : Repeat.Bounds := ⟨2, some 3⟩
    let list := Assembly.listOf 2 b s
    let σ : Setting := ⟨list.2.grammar.optimize, "a , ,a,a".toByteArray, fun _ => true⟩
    (∀ sets, σ.grammar.firstSets = some sets → sets = σ.grammar.computeFirstSets) ∧ s.Spaced ∧ (∀ m ∈ b.max, b.min ≤ m) ∧
      list.2.grammar.Grows σ.grammar ∧ 0 ≤ σ.input.size ∧
      (∀ p, Tries σ 2 (some 3) 0 p → ∃ fuel t, (evaluate σ fuel 2 p t).isSome = true) ∧
      ∃ fuel, ∀ t : Trail,
        Match.Shows t.log (some (.matched 6 #[.enter 0 0, .exit 1, .enter 0 4, .exit 4, .enter 0 5, .exit 6]))
          (evaluate σ fuel list.1 0 t) := by
  intro nodes s b list σ
  have hsets : ∀ sets, σ.grammar.firstSets = some sets → sets = σ.grammar.computeFirstSets :=
    Grammar.sets_optimize list.2.grammar
  have hs : s.Spaced := nofun
  have hb : ∀ m ∈ b.max, b.min ≤ m := by
    rintro _ ⟨⟩
    decide
  have hg : list.2.grammar.Grows σ.grammar := .of_eq rfl rfl
  have hpos : 0 ≤ σ.input.size := Nat.zero_le _
  have hends : ∀ p, Tries σ 2 (some 3) 0 p → ∃ fuel t, (evaluate σ fuel 2 p t).isSome = true := by
    have hall : ∀ p < 9, (evaluate σ 4 2 p Trail.empty).isSome = true := by decide +kernel
    exact fun p hp => ⟨4, Trail.empty, hall p (Nat.lt_succ_of_le (hp.le_size hpos))⟩
  refine ⟨hsets, hs, hb, hg, hpos, hends, ?_⟩
  obtain ⟨items, fault, -, hunique, -, fuel, hfuel⟩ := evaluate_listOf hsets hs hb hg hpos hends
  have helement : ∀ {p : Nat} {a : Answer}, perform σ 4 (.node 2) p = some a → Yields σ (.node 2) p a :=
    yields_of_perform
  have hfound : Found σ 2 (some 3) (some 0)
      [⟨0, 1, #[.enter 0 0, .exit 1]⟩, ⟨4, 4, #[.enter 0 4, .exit 4]⟩, ⟨5, 6, #[.enter 0 5, .exit 6]⟩] none := by
    refine .next nofun (helement (by decide +kernel)) ?_
    have hplace : afterComma? σ.input 1 = some 4 := by decide +kernel
    rw [hplace]
    refine .next nofun (helement (by decide +kernel)) ?_
    have hplace : afterComma? σ.input 4 = some 5 := by decide +kernel
    rw [hplace]
    exact .next nofun (helement (by decide +kernel)) .full
  obtain ⟨rfl, rfl⟩ := hunique _ _ hfound
  exact ⟨fuel, fun t => hfuel fuel (Nat.le_refl _) t⟩

end Listing
end Abnf
