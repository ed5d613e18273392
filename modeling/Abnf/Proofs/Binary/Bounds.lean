import Abnf.Grammar.Render
import Abnf.Proofs.Binary.Outline
import Abnf.Proofs.Compile.Meaning

/-! The bounds of repetitions behind a saving and a reading. One word has to say every upper bound and that there is none,
    and the greatest word says the latter, so a bound of just that number is read back as none. No other bound is lost
    (`bounds_kept_iff`). The text of the grammar tells: a bound that is taken away makes its signs other ones, and the
    difference can be counted (`Pattern.excess_render_uncap`). -/

namespace Abnf

/-! ### Signs -/

/-- How many more stars than digits there are in a text. --/
def excess (s : String) : Int := s.toList.count '*' - s.toList.countP Char.isDigit

theorem excess_append (s t : String) : excess (s ++ t) = excess s + excess t := by
  simp only [excess, String.toList_append, List.count_append, List.countP_append]
  omega

theorem excess_intercalate_cons (sep s t : String) (ss : List String) :
    excess (sep.intercalate (s :: t :: ss)) = excess s + excess sep + excess (sep.intercalate (t :: ss)) := by
  rw [← excess_append, ← excess_append]
  refine congrArg excess (String.toList_inj.mp ?_)
  simp [String.toList_intercalate]

namespace Pattern

variable {ρ : Type} (name : ρ → String)

/-- How many stars more or digits fewer there are in bounds as they are read. An exact count gets a star, and other bounds
    lose their digits. --/
def boundsGain (min : UInt32) (max : Option UInt32) : Nat :=
  if max = some Binary.unbounded then if min = Binary.unbounded then 1 else 10 else 0

mutual

/-- How many stars more or digits fewer there are in the text of a pattern without the bounds that a file cannot say. --/
def gain : Pattern ρ → Nat
  | literal .. | charRange .. | ruleRef _ => 0
  | sequence ps | choice ps => gains ps
  | repetition p min max => boundsGain min max + gain p
  | fold p => gain p

def gains : List (Pattern ρ) → Nat
  | [] => 0
  | p :: ps => gain p + gains ps

end

theorem boundsGain_eq_zero_iff {min : UInt32} {max : Option UInt32} :
    boundsGain min max = 0 ↔ max ≠ some Binary.unbounded := by
  unfold boundsGain
  split
  · rename_i h
    split <;> simp [h]
  · exact iff_of_true rfl ‹_›

mutual

theorem gain_eq_zero_iff : ∀ {p : Pattern ρ}, p.gain = 0 ↔ p.uncapped = true
  | literal .. | charRange .. | ruleRef _ => iff_of_true rfl rfl
  | sequence ps | choice ps => gains_eq_zero_iff
  | repetition p min max => by
    rw [gain, uncapped, Nat.add_eq_zero_iff, boundsGain_eq_zero_iff, gain_eq_zero_iff, Bool.and_eq_true, bne_iff_ne]
  | fold p => gain_eq_zero_iff (p := p)

theorem gains_eq_zero_iff : ∀ {ps : List (Pattern ρ)}, gains ps = 0 ↔ uncappeds ps = true
  | [] => iff_of_true rfl rfl
  | p :: ps => by
    rw [gains, uncappeds, Nat.add_eq_zero_iff, gain_eq_zero_iff, gains_eq_zero_iff, Bool.and_eq_true]

end

theorem uncappeds_iff {ps : List (Pattern ρ)} : uncappeds ps = true ↔ ∀ p ∈ ps, p.uncapped = true := by
  induction ps with
  | nil => exact iff_of_true rfl nofun
  | cons p ps ih => rw [uncappeds, Bool.and_eq_true, ih, List.forall_mem_cons]

/-- Texts that gain what patterns do, one behind the other. --/
theorem excess_join {α : Type} {f f' : α → String} {p : α → Pattern ρ} {xs : List α}
    (h : ∀ x ∈ xs, excess (f' x) = excess (f x) + (p x).gain) :
    excess (String.join (xs.map f')) = excess (String.join (xs.map f)) + gains (xs.map p) := by
  induction xs with
  | nil => rfl
  | cons x xs ih =>
    obtain ⟨hx, hxs⟩ := List.forall_mem_cons.mp h
    have ih := ih hxs
    simp only [List.map_cons, String.join_cons, excess_append, gains]
    omega

theorem excess_renderBounds (min : UInt32) (max : Option UInt32) :
    excess (renderBounds min (readMax max)) = excess (renderBounds min max) + boundsGain min max := by
  rw [boundsGain]
  by_cases hmax : max = some Binary.unbounded
  · subst hmax
    rw [if_pos rfl, readMax, if_pos rfl]
    by_cases hexact : min = Binary.unbounded
    · subst hexact
      decide +kernel
    · by_cases hzero : min = 0
      · subst hzero
        decide +kernel
      · have hdigits : excess (Binary.unbounded.toNat.repr) = -10 := by decide +kernel
        rw [if_neg hexact, renderBounds, renderBounds, if_neg hzero, if_neg hexact, if_neg hzero]
        have hnone : excess (s!"{min.toNat}*") = excess min.toNat.repr + excess "*" := excess_append _ _
        have hsome : excess (s!"{min.toNat}*{Binary.unbounded.toNat}") =
            excess min.toNat.repr + excess "*" + excess Binary.unbounded.toNat.repr := by
          rw [← excess_append, ← excess_append]
          rfl
        rw [hnone, hsome, hdigits]
        omega
  · rw [if_neg hmax, readMax_eq_self_iff.mpr hmax]
    exact (Int.add_zero _).symm

theorem needsBrackets_uncap (tight : Bool) (p : Pattern ρ) : p.uncap.needsBrackets tight = p.needsBrackets tight := by
  cases p <;> rfl

theorem excess_bracketIf (b : Bool) (s t : String) (n : Int) (h : excess s = excess t + n) :
    excess (bracketIf b s) = excess (bracketIf b t) + n := by
  cases b with
  | false => exact h
  | true =>
    simp only [bracketIf, if_true, excess_append, h]
    omega

mutual

theorem excess_render_uncap : ∀ p : Pattern ρ, excess (p.uncap.render name) = excess (p.render name) + p.gain
  | literal .. | charRange .. | ruleRef _ => (Int.add_zero _).symm
  | sequence ps => excess_renderOperands_uncaps " " true ps
  | choice ps => excess_renderOperands_uncaps " / " false ps
  | repetition p min max => by
    have ih := excess_bracketIf (needsBrackets true p) _ _ _ (excess_render_uncap p)
    rw [uncap, render, render, gain]
    by_cases hoption : min = 0 ∧ max = some 1
    · obtain ⟨rfl, rfl⟩ := hoption
      have hmax : readMax (some 1) = some 1 := rfl
      have hgain : boundsGain 0 (some 1) = 0 := rfl
      rw [hmax, if_pos ⟨rfl, rfl⟩, if_pos ⟨rfl, rfl⟩, hgain]
      simp only [excess_append, excess_render_uncap p]
      omega
    · have hoption' : ¬(min = 0 ∧ readMax max = some 1) := by
        rintro ⟨hmin, hmax⟩
        unfold readMax at hmax
        split at hmax
        · cases hmax
        · exact hoption ⟨hmin, hmax⟩
      rw [if_neg hoption, if_neg hoption', excess_append, excess_append, excess_renderBounds, needsBrackets_uncap, ih]
      omega
  | fold p => by
    have ih := excess_render_uncap p
    rw [uncap, render, render, gain]
    exact excess_bracketIf true _ _ _ ih

theorem excess_renderOperands_uncaps (sep : String) (tight : Bool) : ∀ ps : List (Pattern ρ),
    excess (sep.intercalate (renderOperands name tight (uncaps ps))) =
      excess (sep.intercalate (renderOperands name tight ps)) + gains ps
  | [] => (Int.add_zero _).symm
  | [p] => by
    have ih := excess_bracketIf (needsBrackets tight p) _ _ _ (excess_render_uncap p)
    simpa [uncaps, renderOperands, gains, needsBrackets_uncap] using ih
  | p :: q :: ps => by
    have ih := excess_bracketIf (needsBrackets tight p) _ _ _ (excess_render_uncap p)
    have ihs := excess_renderOperands_uncaps sep tight (q :: ps)
    simp only [uncaps, renderOperands, gains, needsBrackets_uncap, excess_intercalate_cons] at ih ihs ⊢
    omega

end

end Pattern

/-! ### Grammars -/

namespace Grammar

variable {g g' : Grammar}

/-- What is made of the rules of a grammar with the outline that a file keeps of another. --/
theorem map_rules_of_saved {α : Type} (h : g'.outline = g.savedOutline) (f : String → Pattern RuleId → α) :
    (g'.rules.map fun x => f x.2.1 (g'.pattern x.2.2)) = g.rules.map fun x => f x.2.1 (g.pattern x.2.2).uncap := by
  rw [map_rules, h, savedOutline, List.filterMap_map, map_rules g fun name p => f name p.uncap]
  refine congrArg (List.filterMap · _) (funext fun e => ?_)
  rw [Function.comp_apply, Option.map_map]
  rfl

theorem ruleName_of_saved (h : g'.outline = g.savedOutline) : g'.ruleName = g.ruleName :=
  ruleName_congr (by rw [h, names_savedOutline])

/-- The line of a rule. --/
def ruleLine (g : Grammar) (name : String) (p : Pattern RuleId) : String := name ++ " = " ++ p.render g.ruleName ++ "\n"

theorem render_of_saved (h : g'.outline = g.savedOutline) :
    g'.render = String.join (g.rules.map fun x => g.ruleLine x.2.1 (g.pattern x.2.2).uncap) := by
  have hline : g'.ruleLine = g.ruleLine := by
    funext name p
    rw [ruleLine, ruleLine, ruleName_of_saved h]
  rw [← map_rules_of_saved h g.ruleLine, ← hline]
  rfl

/-- How much the text of a grammar gains. --/
def gain (g : Grammar) : Nat := Pattern.gains (g.rules.map fun x => g.pattern x.2.2)

theorem excess_render (h : g'.outline = g.savedOutline) : excess g'.render = excess g.render + g.gain := by
  have hrender : g.render = String.join (g.rules.map fun x => g.ruleLine x.2.1 (g.pattern x.2.2)) := rfl
  rw [render_of_saved h, hrender]
  refine Pattern.excess_join fun x _ => ?_
  simp only [ruleLine, excess_append, Pattern.excess_render_uncap]
  omega

theorem gain_eq_zero_iff : g.gain = 0 ↔ ∀ r i, g.root? r = some i → (g.pattern i).uncapped = true := by
  rw [gain, Pattern.gains_eq_zero_iff, Pattern.uncappeds_iff, List.forall_mem_map]
  constructor
  · intro h r i hi
    obtain ⟨s, hs, hsi⟩ := root?_eq_some_iff.mp hi
    exact h _ (mem_rules.mpr ⟨s, hs, rfl, hsi⟩)
  · rintro h ⟨r, n, i⟩ hx
    obtain ⟨s, hs, -, hsi⟩ := mem_rules.mp hx
    exact h r i (root?_eq_some_iff.mpr ⟨s, hs, hsi⟩)

theorem render_eq_iff (h : g'.outline = g.savedOutline) :
    g'.render = g.render ↔ ∀ r i, g.root? r = some i → (g.pattern i).uncapped = true := by
  constructor
  · intro heq
    have hexcess := excess_render h
    rw [heq] at hexcess
    exact gain_eq_zero_iff.mp (by omega)
  · intro huncapped
    rw [render_of_saved h]
    refine congrArg String.join (List.map_congr_left ?_)
    rintro ⟨r, n, i⟩ hx
    obtain ⟨s, hs, -, hsi⟩ := mem_rules.mp hx
    have hi := Pattern.uncap_eq_self_iff.mpr (huncapped r i (root?_eq_some_iff.mpr ⟨s, hs, hsi⟩))
    exact congrArg (g.ruleLine n) hi

end Grammar

namespace Binary

/-- What becomes of bounds. A grammar that was saved and read back has the outline that it had, without the upper bounds
    that are the greatest word: these are read as no bound at all, and all others as they were. So the outline is the old
    one just if no rule has a repetition with that bound, and the text of the grammar too. --/
theorem bounds_kept_iff {g g' : Grammar} (hw : g.WellFormed) {bytes : List UInt8} (h : encode g = .ok bytes)
    (hd : decode bytes = .ok g') :
    g'.outline = g.outline.map (fun e => (e.1, e.2.map Pattern.uncap)) ∧
      (g'.outline = g.outline ↔ ∀ r i, g.root? r = some i → (g.pattern i).uncapped = true) ∧
      (g'.render = g.render ↔ ∀ r i, g.root? r = some i → (g.pattern i).uncapped = true) := by
  obtain ⟨-, houtline⟩ := outline_decode_encode hw h hd
  refine ⟨houtline, ?_, Grammar.render_eq_iff houtline⟩
  rw [houtline]
  exact Grammar.savedOutline_eq_iff

/-- Exactly as often as the greatest word says. --/
def greatest : String := "r = 4294967295\"a\"\n"

/-- The count is read back as a lower bound only. --/
theorem bounds_kept_iff_greatest : ∃ c bytes g', compile greatest {} = .ok c ∧ encode c.grammar = .ok bytes ∧
    decode bytes = .ok g' ∧ c.grammar.render = "r = 4294967295\"a\"\n" ∧ g'.render = "r = 4294967295*\"a\"\n" ∧
    g'.outline ≠ c.grammar.outline := by
  have htexts : ((compile greatest {}).toOption.bind fun c => (encode c.grammar).toOption.bind fun bytes =>
      (decode bytes).toOption.map fun g' => (c.grammar.render, g'.render)) =
      some ("r = 4294967295\"a\"\n", "r = 4294967295*\"a\"\n") := by decide +kernel
  obtain ⟨c, hc, htexts⟩ := Option.bind_eq_some_iff.mp htexts
  obtain ⟨bytes, henc, htexts⟩ := Option.bind_eq_some_iff.mp htexts
  obtain ⟨g', hdec, htexts⟩ := Option.map_eq_some_iff.mp htexts
  obtain ⟨hbefore, hafter⟩ := Prod.ext_iff.mp htexts
  rw [toOption_eq_some] at hc henc hdec
  refine ⟨c, bytes, g', hc, henc, hdec, hbefore, hafter, fun heq => ?_⟩
  obtain ⟨-, houtline, hrender⟩ := bounds_kept_iff (wellFormed_compile hc nofun) henc hdec
  have hsame := hrender.mpr (houtline.mp heq)
  rw [show c.grammar.render = _ from hbefore, show g'.render = _ from hafter] at hsame
  exact absurd hsame (by decide)

end Binary

end Abnf
