import Abnf.Proofs.Match.Pruning
import Mathlib.Data.Fintype.EquivFin
import Mathlib.Logic.Relation
import Mathlib.Order.WellFounded

/-! Matching comes to an end unless rules go round at one position. A rule enters another at the same position if
    a reference to it is reached from the root without anything read on the way, as far as first sets can
    tell (`Enters`). If no rule comes back to itself so, every match ends (`run_ne_endless`). The induction is on the
    input that is left; while a match stays where it is, on the rules that are left to enter, and inside
    a rule on the nodes, whose parts stand before them. That an earlier part of a sequence really read nothing
    only if its first set allows it is `Yields.fits`. -/

namespace Abnf
namespace Grammar

variable {g : Grammar}

/-- The parts of a node stand before it. --/
def PartsFirst (g : Grammar) : Prop :=
  ∀ (i : NodeId) (n : Node), g.nodes[i]? = some n → ∀ c ∈ n.children, c < i

/-- Whether the first sets let a node match empty. --/
def nullable (g : Grammar) (i : NodeId) : Bool := (setOf g.computeFirstSets i).nullable

/-- A node begins with another: a match of the first may try the second where it is itself tried. --/
inductive Begins (g : Grammar) : NodeId → NodeId → Prop where
  | choice {i n : NodeId} {ns : List NodeId} (h : g.nodes[i]? = some (.choice ns)) (hn : n ∈ ns) : g.Begins i n
  | fold {i n : NodeId} (h : g.nodes[i]? = some (.fold n)) : g.Begins i n
  | repetition {i n : NodeId} {min : UInt32} {max : Option UInt32} (h : g.nodes[i]? = some (.repetition n min max))
      (hmax : max ≠ some 0) : g.Begins i n
  | sequence {i n : NodeId} {before after : List NodeId} (h : g.nodes[i]? = some (.sequence (before ++ n :: after)))
      (hbefore : ∀ m ∈ before, g.nullable m = true) : g.Begins i n

/-- The nodes that a node begins with, as a list. --/
def firstParts (g : Grammar) (i : NodeId) : List NodeId :=
  match g.nodes[i]? with
  | some (.sequence ns) => ns.takeWhile g.nullable ++ (ns.dropWhile g.nullable).take 1
  | some (.repetition n _ max) => if max = some 0 then [] else [n]
  | some n => n.children
  | none => []

theorem Begins.mem_firstParts {i j : NodeId} (h : g.Begins i j) : j ∈ g.firstParts i := by
  cases h with
  | choice h hn =>
    rw [firstParts, h]
    exact hn
  | fold h =>
    rw [firstParts, h]
    exact List.mem_cons_self
  | repetition h hmax =>
    rw [firstParts, h]
    dsimp only
    rw [if_neg hmax]
    exact List.mem_cons_self
  | sequence h hbefore =>
    rw [firstParts, h]
    dsimp only
    rw [List.takeWhile_append_of_pos hbefore, List.dropWhile_append_of_pos hbefore]
    cases hj : g.nullable j <;> simp [hj]

/-- A rule enters another at the same position. --/
def Enters (g : Grammar) (r s : RuleId) : Prop :=
  ∃ root i, g.root? r = some root ∧ Relation.ReflTransGen g.Begins root i ∧ g.nodes[i]? = some (.ruleRef s)

/-- Nodes that hold a root and all that they begin with hold all that the root can begin with. --/
theorem mem_of_begins {root : NodeId} {is : List NodeId} (hroot : root ∈ is)
    (his : ∀ i ∈ is, ∀ j ∈ g.firstParts i, j ∈ is) {i : NodeId} (hi : Relation.ReflTransGen g.Begins root i) :
    i ∈ is := by
  induction hi with
  | refl => exact hroot
  | tail _ hb ih => exact his _ ih _ hb.mem_firstParts

/-- A rule enters only later rules if the nodes that its root can begin with refer only to such. --/
theorem Enters.lt {r s : RuleId} (h : g.Enters r s) (is : List NodeId) (hroot : ∀ root ∈ g.root? r, root ∈ is)
    (his : ∀ i ∈ is, ∀ j ∈ g.firstParts i, j ∈ is) (hrules : ∀ i ∈ is, ∀ n ∈ g.nodes[i]?, ∀ q ∈ n.rules, r < q) :
    r < s := by
  obtain ⟨root, i, hr, hi, hs⟩ := h
  exact hrules i (mem_of_begins (hroot root hr) his hi) _ hs s List.mem_cons_self

/-- No rule comes back to itself at the same position. --/
def NoLeftRecursion (g : Grammar) : Prop := ∀ r, ¬Relation.TransGen g.Enters r r

/-- Without left recursion the rules have an order in which each stands behind all that it enters. --/
theorem NoLeftRecursion.wellFounded (h : g.NoLeftRecursion) :
    WellFounded fun s r : Fin g.slots.size => g.Enters r s := by
  let R : Fin g.slots.size → Fin g.slots.size → Prop := fun s r => Relation.TransGen g.Enters r s
  have htrans : IsTrans _ R := ⟨fun _ _ _ h₁ h₂ => h₂.trans h₁⟩
  have hirrefl : Std.Irrefl R := ⟨fun r hr => h r hr⟩
  have hwf : WellFounded R := Finite.wellFounded_of_trans_of_irrefl R
  exact Subrelation.wf (fun hs => .single hs) hwf

end Grammar

namespace Match

/-- A task comes to an answer. --/
def Ends (σ : Setting) (task : Task) (pos : Nat) : Prop := ∃ a, Yields σ task pos a

/-- All nodes come to answers wherever a match can get to from a position by reading. --/
def EndsLater (σ : Setting) (pos : Nat) : Prop :=
  ∀ stop, Forward σ.input.size pos stop → stop ≠ pos → ∀ i, Ends σ (.node i) stop

section
variable {σ : Setting} {pos : Nat}

theorem EndsLater.forward (h : EndsLater σ pos) {mid : Nat} (hmid : Forward σ.input.size pos mid) :
    EndsLater σ mid := by
  intro stop hstop hne i
  refine h stop (hmid.trans hstop) ?_ i
  obtain ⟨h₁, -⟩ := hmid
  obtain ⟨h₂, -⟩ := hstop
  omega

/-- A node that matches empty has a first set that says so. --/
theorem nullable_of_yields {n : NodeId} {l : Log} (h : Yields σ (.node n) pos (.matched pos l)) :
    σ.grammar.nullable n = true := by
  have hfits := h.fits (Grammar.closed_computeFirstSets σ.grammar)
  rwa [Answer.Fits, if_pos rfl] at hfits

/-! ### Parts of nodes -/

theorem ends_sequence : ∀ (ns : List NodeId) (pos : Nat), EndsLater σ pos →
    (∀ before n after, ns = before ++ n :: after → (∀ m ∈ before, σ.grammar.nullable m = true) → Ends σ (.node n) pos) →
    Ends σ (.sequence ns) pos
  | [], _, _, _ => ⟨_, .sequenceNil⟩
  | n :: ns, pos, hlater, h => by
    obtain ⟨a, ha⟩ := h [] n ns rfl nofun
    cases a with
    | matched mid l =>
      have hfwd := ha.forward mid l rfl
      have hrest : Ends σ (.sequence ns) mid := by
        by_cases hmid : mid = pos
        · -- Nothing was read, so what follows `n` is tried at the same position.
          subst hmid
          refine ends_sequence ns mid hlater fun before m after hns hbefore => ?_
          refine h (n :: before) m after (congrArg (n :: ·) hns) ?_
          exact List.forall_mem_cons.mpr ⟨nullable_of_yields ha, hbefore⟩
        · exact ends_sequence ns mid (hlater.forward hfwd) fun _ m _ _ _ => hlater mid hfwd hmid m
      obtain ⟨b, hb⟩ := hrest
      exact ⟨_, .sequenceCons ha hb⟩
    | noMatch | undefined => exact ⟨_, .sequenceStop ha rfl⟩

theorem ends_choice : ∀ (ns : List NodeId) (empty : Option Log), (∀ n ∈ ns, Ends σ (.node n) pos) →
    Ends σ (.choice ns empty) pos
  | [], _, _ => ⟨_, .choiceNil⟩
  | n :: ns, empty, h => by
    obtain ⟨⟨a, ha⟩, hns⟩ := List.forall_mem_cons.mp h
    cases hn : admits σ pos n with
    | false =>
      obtain ⟨b, hb⟩ := ends_choice ns empty hns
      exact ⟨b, .choiceSkip hn hb⟩
    | true =>
      cases a with
      | matched stop l =>
        by_cases hlt : pos < stop
        · exact ⟨_, .choiceTake hn ha hlt⟩
        · obtain ⟨b, hb⟩ := ends_choice ns (some (empty.getD l)) hns
          exact ⟨b, .choiceEmpty hn ha hlt hb⟩
      | noMatch =>
        obtain ⟨b, hb⟩ := ends_choice ns empty hns
        exact ⟨b, .choiceFail hn ha hb⟩
      | undefined r => exact ⟨_, .choiceStop hn ha⟩

/-- A round that reads something leaves less to read, and one that reads nothing is the last. --/
theorem ends_rounds (n : NodeId) (min : Nat) (max : Option Nat) (count pos : Nat) (hlater : EndsLater σ pos)
    (h : max.all (count < ·) = true → Ends σ (.node n) pos) : Ends σ (.rounds n min max count) pos := by
  cases hcount : max.all (count < ·) with
  | false => exact ⟨_, .roundsFull hcount⟩
  | true =>
    obtain ⟨a, ha⟩ := h hcount
    cases a with
    | matched stop l =>
      by_cases hstop : stop = pos
      · subst hstop
        exact ⟨_, .roundsEmpty hcount ha⟩
      · have hfwd := ha.forward stop l rfl
        have hless : σ.input.size - stop < σ.input.size - pos := by
          obtain ⟨h₁, h₂⟩ := hfwd
          omega
        obtain ⟨b, hb⟩ := ends_rounds n min max (count + 1) stop (hlater.forward hfwd) fun _ => hlater stop hfwd hstop n
        exact ⟨_, .roundsNext hcount ha hstop hb⟩
    | noMatch => exact ⟨_, .roundsFail hcount ha⟩
    | undefined r => exact ⟨_, .roundsStop hcount ha⟩
termination_by σ.input.size - pos

/-! ### Nodes and rules -/

theorem ends_node (hparts : σ.grammar.PartsFirst)
    (hlater : EndsLater σ pos) (i : NodeId)
    (hrules : ∀ j s, Relation.ReflTransGen σ.grammar.Begins i j → σ.grammar.nodes[j]? = some (.ruleRef s) →
      ∀ wanted, Ends σ (.rule s wanted) pos) :
    Ends σ (.node i) pos := by
  -- Parts stand before their node, so the induction is on its place. It stops at references.
  induction i using Nat.strong_induction_on with
  | _ i ih =>
    have hpart : ∀ c, c < i → σ.grammar.Begins i c → Ends σ (.node c) pos := fun c hlt hc =>
      ih c hlt fun j s hj => hrules j s (.head hc hj)
    cases hi : σ.grammar.nodes[i]? with
    | none => exact ⟨_, .missing hi⟩
    | some n =>
      have hless := hparts i n hi
      cases n with
      | literal bytes ignoreCase => exact ⟨_, .literal hi⟩
      | charRange lo hi' => exact ⟨_, .charRange hi⟩
      | sequence ns =>
        have hs : Ends σ (.sequence ns) pos := by
          refine ends_sequence ns pos hlater fun before m after hns hbefore => ?_
          subst hns
          exact hpart m (hless m (by simp [Node.children])) (.sequence hi hbefore)
        obtain ⟨a, ha⟩ := hs
        exact ⟨a, .sequence hi ha⟩
      | choice ns =>
        obtain ⟨a, ha⟩ := ends_choice ns none fun m hm => hpart m (hless m hm) (.choice hi hm)
        exact ⟨a, .choice hi ha⟩
      | repetition m min max =>
        have hs : Ends σ (.rounds m min.toNat (max.map UInt32.toNat) 0) pos := by
          refine ends_rounds m _ _ 0 pos hlater fun hcount => ?_
          exact hpart m (hless m List.mem_cons_self) (.repetition hi (Node.all_pos_iff.mp hcount))
        obtain ⟨a, ha⟩ := hs
        exact ⟨a, .repetition hi ha⟩
      | ruleRef r =>
        obtain ⟨a, ha⟩ := hrules i r .refl hi (σ.observed r)
        exact ⟨a, .ruleRef hi ha⟩
      | fold m =>
        obtain ⟨a, ha⟩ := hpart m (hless m List.mem_cons_self) (.fold hi)
        exact ⟨a, .fold hi ha⟩

theorem ends_rule (hparts : σ.grammar.PartsFirst)
    (hrec : σ.grammar.NoLeftRecursion) (hlater : EndsLater σ pos) (r : RuleId) (wanted : Bool) :
    Ends σ (.rule r wanted) pos := by
  have hnone : ∀ s, σ.grammar.root? s = none → ∀ wanted, Ends σ (.rule s wanted) pos :=
    fun s hs _ => ⟨_, .undefined hs⟩
  have hfin : ∀ (r : Fin σ.grammar.slots.size) (wanted : Bool), Ends σ (.rule r wanted) pos := by
    intro r
    -- The rules that are entered at this position stand lower in the order.
    induction r using hrec.wellFounded.induction with
    | _ r ih =>
      intro wanted
      cases hroot : σ.grammar.root? r with
      | none => exact hnone r hroot wanted
      | some root =>
        have hends : Ends σ (.node root) pos := by
          refine ends_node hparts hlater root fun j s hj hs wanted => ?_
          rcases Nat.lt_or_ge s σ.grammar.slots.size with hlt | hge
          · exact ih ⟨s, hlt⟩ ⟨root, j, hroot, hj, hs⟩ wanted
          · exact hnone s (Grammar.root?_eq_none_of_le hge) wanted
        obtain ⟨a, ha⟩ := hends
        exact ⟨_, .rule hroot ha⟩
  rcases Nat.lt_or_ge r σ.grammar.slots.size with hlt | hge
  · exact hfin ⟨r, hlt⟩ wanted
  · exact hnone r (Grammar.root?_eq_none_of_le hge) wanted

theorem endsLater (hparts : σ.grammar.PartsFirst)
    (hrec : σ.grammar.NoLeftRecursion) (pos : Nat) : EndsLater σ pos := by
  intro stop hfwd hne i
  -- The recursion is on what is left to read.
  have hless : σ.input.size - stop < σ.input.size - pos := by
    obtain ⟨h₁, h₂⟩ := hfwd
    omega
  have hlater : EndsLater σ stop := endsLater hparts hrec stop
  exact ends_node hparts hlater i fun _ s _ _ wanted => ends_rule hparts hrec hlater s wanted
termination_by σ.input.size - pos

end

/-- A match of a grammar without left recursion comes to an end, from any position and with any input. --/
theorem run_ne_endless {g : Grammar} (hparts : g.PartsFirst)
    (hrec : g.NoLeftRecursion) (input : ByteArray) (observed : RuleId → Bool) (r : RuleId) (start : Nat) :
    Terminates ⟨g, input, observed⟩ r start ∧ run ⟨g, input, observed⟩ r start ≠ .error .endless := by
  have hends : Terminates ⟨g, input, observed⟩ r start :=
    terminates_iff.mpr (ends_rule hparts hrec (endsLater hparts hrec start) r true)
  exact ⟨hends, fun h => run_endless_iff.mp h hends⟩

/-- One rule of `turns` enters the other, which reads a letter before it comes back. --/
theorem noLeftRecursion_turns : Grammar.turns.NoLeftRecursion := by
  have henters : ∀ r s, Grammar.turns.Enters r s → r < s := by
    intro r s h
    match r with
    | 0 => exact h.lt [3, 2, 1, 0] (by decide) (by decide +kernel) (by decide)
    | 1 => exact h.lt [6, 4] (by decide) (by decide +kernel) (by decide)
    | r + 2 =>
      obtain ⟨root, -, hroot, -⟩ := h
      cases hroot
  intro r hr
  have hlt : ∀ s, Relation.TransGen Grammar.turns.Enters r s → r < s := by
    intro s hs
    induction hs with
    | single h => exact henters _ _ h
    | tail _ h ih => exact Nat.lt_trans ih (henters _ _ h)
  exact Nat.lt_irrefl r (hlt r hr)

/-- The rules go round once, and then the repetition comes to the end of the input. --/
theorem run_ne_endless_turns :
    let input : ByteArray := ⟨#[0x41, 0x62, 0x61]⟩
    Grammar.turns.PartsFirst ∧ Grammar.turns.NoLeftRecursion ∧
      Terminates ⟨Grammar.turns, input, fun _ => true⟩ 0 0 ∧
      run ⟨Grammar.turns, input, fun _ => true⟩ 0 0 ≠ .error .endless := by
  intro input
  have hparts : Grammar.turns.PartsFirst := Grammar.wellFormed_turns.parts
  exact ⟨hparts, noLeftRecursion_turns, run_ne_endless hparts noLeftRecursion_turns input (fun _ => true) 0 0⟩

end Match
end Abnf
