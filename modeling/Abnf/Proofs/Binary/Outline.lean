import Abnf.Proofs.Binary.Decode
import Abnf.Proofs.Binary.Matching
import Abnf.Proofs.Grammar.Union

/-! What a grammar says, and what of it a file keeps. The outline of a grammar is its names in their places, each with the
    pattern of its rule, however the nodes are laid out. A file depends on nothing but the name and the outline, and not
    on all of that: grammars that differ only in upper bounds that are the greatest word or none are saved as one file
    (`Binary.encode_congr`). What is read back has the outline that the file keeps (`Binary.outline_decode_encode`). -/

namespace Abnf

namespace Pattern

variable {ρ : Type}

/-! ### Bounds -/

mutual

/-- The pattern without the upper bounds that a file cannot say. --/
def uncap : Pattern ρ → Pattern ρ
  | literal bs ignoreCase => literal bs ignoreCase
  | charRange lo hi => charRange lo hi
  | sequence ps => sequence (uncaps ps)
  | choice ps => choice (uncaps ps)
  | repetition p min max => repetition (uncap p) min (readMax max)
  | ruleRef r => ruleRef r
  | fold p => fold (uncap p)

def uncaps : List (Pattern ρ) → List (Pattern ρ)
  | [] => []
  | p :: ps => uncap p :: uncaps ps

end

mutual

/-- Whether no upper bound of a pattern is the greatest word. --/
def uncapped : Pattern ρ → Bool
  | literal .. | charRange .. | ruleRef _ => true
  | sequence ps | choice ps => uncappeds ps
  | repetition p _ max => max != some Binary.unbounded && uncapped p
  | fold p => uncapped p

def uncappeds : List (Pattern ρ) → Bool
  | [] => true
  | p :: ps => uncapped p && uncappeds ps

end

theorem readMax_eq_self_iff {max : Option UInt32} : readMax max = max ↔ max ≠ some Binary.unbounded := by
  unfold readMax
  split
  · rename_i h
    simp [h]
  · rename_i h
    simp [h]

@[simp] theorem readMax_readMax (max : Option UInt32) : readMax (readMax max) = readMax max := by
  refine readMax_eq_self_iff.mpr ?_
  unfold readMax
  split
  · exact nofun
  · assumption

theorem length_spells (name : ρ → String) (ps : List (Pattern ρ)) : (spells name ps).length = ps.length := by
  induction ps with
  | nil => rfl
  | cons p ps ih => exact congrArg (· + 1) ih

mutual

@[simp] theorem spell_uncap (name : ρ → String) : ∀ p : Pattern ρ, p.uncap.spell name = p.spell name
  | literal .. | charRange .. | ruleRef _ => rfl
  | sequence ps => congrArg sequence (spells_uncaps name ps)
  | choice ps => congrArg choice (spells_uncaps name ps)
  | repetition p min max => by rw [uncap, spell, spell, spell_uncap name p, readMax_readMax]
  | fold p => congrArg fold (spell_uncap name p)

theorem spells_uncaps (name : ρ → String) : ∀ ps : List (Pattern ρ), spells name (uncaps ps) = spells name ps
  | [] => rfl
  | p :: ps => by rw [uncaps, spells, spells, spell_uncap name p, spells_uncaps name ps]

end

mutual

@[simp] theorem uncap_uncap : ∀ p : Pattern ρ, p.uncap.uncap = p.uncap
  | literal .. | charRange .. | ruleRef _ => rfl
  | sequence ps => congrArg sequence (uncaps_uncaps ps)
  | choice ps => congrArg choice (uncaps_uncaps ps)
  | repetition p min max => by rw [uncap, uncap, uncap_uncap p, readMax_readMax]
  | fold p => congrArg fold (uncap_uncap p)

theorem uncaps_uncaps : ∀ ps : List (Pattern ρ), uncaps (uncaps ps) = uncaps ps
  | [] => rfl
  | p :: ps => by rw [uncaps, uncaps, uncap_uncap p, uncaps_uncaps ps]

end

mutual

theorem uncap_eq_self_iff : ∀ {p : Pattern ρ}, p.uncap = p ↔ p.uncapped = true
  | literal .. | charRange .. | ruleRef _ => iff_of_true rfl rfl
  | sequence ps => by rw [uncap, sequence.injEq, uncaps_eq_self_iff, uncapped]
  | choice ps => by rw [uncap, choice.injEq, uncaps_eq_self_iff, uncapped]
  | repetition p min max => by
    rw [uncap, repetition.injEq, uncap_eq_self_iff, readMax_eq_self_iff, uncapped, Bool.and_eq_true, bne_iff_ne]
    exact ⟨fun ⟨hp, _, hmax⟩ => ⟨hmax, hp⟩, fun ⟨hmax, hp⟩ => ⟨hp, rfl, hmax⟩⟩
  | fold p => by rw [uncap, fold.injEq, uncap_eq_self_iff, uncapped]

theorem uncaps_eq_self_iff : ∀ {ps : List (Pattern ρ)}, uncaps ps = ps ↔ uncappeds ps = true
  | [] => iff_of_true rfl rfl
  | p :: ps => by
    rw [uncaps, List.cons.injEq, uncap_eq_self_iff, uncaps_eq_self_iff, uncappeds, Bool.and_eq_true]

end

/-! ### Marks for rules -/

section
variable {α : Type} (mark : ρ → α)

mutual

@[simp] theorem rename_id : ∀ p : Pattern ρ, p.rename id = p
  | literal .. | charRange .. | ruleRef _ => rfl
  | sequence ps => congrArg sequence (renames_id ps)
  | choice ps => congrArg choice (renames_id ps)
  | repetition p min max => congrArg (repetition · min max) (rename_id p)
  | fold p => congrArg fold (rename_id p)

theorem renames_id : ∀ ps : List (Pattern ρ), renames id ps = ps
  | [] => rfl
  | p :: ps => by rw [renames, rename_id p, renames_id ps]

end

mutual

@[simp] theorem height_rename : ∀ p : Pattern ρ, (p.rename mark).height = p.height
  | literal .. | charRange .. | ruleRef _ => rfl
  | sequence ps | choice ps => congrArg (· + 1) (heights_renames ps)
  | repetition p _ _ | fold p => congrArg (· + 1) (height_rename p)

theorem heights_renames : ∀ ps : List (Pattern ρ), heights (renames mark ps) = heights ps
  | [] => rfl
  | p :: ps => by rw [renames, heights, heights, height_rename p, heights_renames ps]

end

mutual

@[simp] theorem uncapped_rename : ∀ p : Pattern ρ, (p.rename mark).uncapped = p.uncapped
  | literal .. | charRange .. | ruleRef _ => rfl
  | sequence ps | choice ps => uncappeds_renames ps
  | repetition p _ max => congrArg (max != some Binary.unbounded && ·) (uncapped_rename p)
  | fold p => by rw [rename, uncapped, uncapped, uncapped_rename p]

theorem uncappeds_renames : ∀ ps : List (Pattern ρ), uncappeds (renames mark ps) = uncappeds ps
  | [] => rfl
  | p :: ps => by rw [renames, uncappeds, uncappeds, uncapped_rename p, uncappeds_renames ps]

end

end

end Pattern

/-! ### Outlines -/

namespace Grammar

section
variable {g g' : Grammar}

/-- The names of a grammar in their places, each with the pattern of its rule. --/
def outline (g : Grammar) : RuleTable (Pattern RuleId) := g.slots.toList.map fun s => (s.name, s.root.map g.pattern)

/-- The outline that a file keeps. --/
def savedOutline (g : Grammar) : RuleTable (Pattern RuleId) := g.outline.map fun e => (e.1, e.2.map Pattern.uncap)

theorem getElem?_outline (g : Grammar) (r : RuleId) :
    g.outline[r]? = g.slots[r]?.map fun s => (s.name, s.root.map g.pattern) := by
  rw [outline, List.getElem?_map, Array.getElem?_toList]

theorem names_savedOutline (g : Grammar) : g.savedOutline.map Prod.fst = g.outline.map Prod.fst := by
  rw [savedOutline, List.map_map]
  rfl

theorem ruleName_congr (h : g'.outline.map Prod.fst = g.outline.map Prod.fst) : g'.ruleName = g.ruleName := by
  have hname : ∀ g : Grammar, g.ruleName = fun r => ((g.outline.map Prod.fst)[r]?).getD "" := by
    intro g
    funext r
    rw [ruleName, List.getElem?_map, getElem?_outline, Option.map_map]
    rfl
  rw [hname, hname, h]

/-- What is made of the rules one by one, made of their names and patterns. --/
theorem map_rules {α : Type} (g : Grammar) (f : String → Pattern RuleId → α) :
    (g.rules.map fun x => f x.2.1 (g.pattern x.2.2)) = g.outline.filterMap fun e => e.2.map (f e.1) := by
  have main : ∀ (l : List Slot) (k : Nat),
      ((l.zipIdx k).filterMap fun x => x.1.root.map fun n => (x.2, x.1.name, n)).map
        (fun x => f x.2.1 (g.pattern x.2.2)) =
      (l.map fun s => (s.name, s.root.map g.pattern)).filterMap fun e => e.2.map (f e.1) := by
    intro l
    induction l with
    | nil => exact fun _ => rfl
    | cons s l ih =>
      intro k
      rw [List.zipIdx_cons, List.filterMap_cons, List.map_cons, List.filterMap_cons]
      cases h : s.root with
      | none => simp [ih (k + 1)]
      | some i => simp [ih (k + 1)]
  exact main g.slots.toList 0

theorem savedOutline_eq_iff : g.savedOutline = g.outline ↔
    ∀ r i, g.root? r = some i → (g.pattern i).uncapped = true := by
  have hid : g.outline.map id = g.outline := List.map_id _
  rw [savedOutline, ← hid, List.map_map, List.map_inj_left]
  constructor
  · intro h r i hi
    obtain ⟨s, hs, hsi⟩ := root?_eq_some_iff.mp hi
    have he := h (s.name, some (g.pattern i)) (List.mem_of_getElem? (by rw [getElem?_outline, hs]; simp [hsi]))
    exact Pattern.uncap_eq_self_iff.mp (by simpa using he)
  · intro h e he
    obtain ⟨r, hr⟩ := List.mem_iff_getElem?.mp he
    rw [getElem?_outline] at hr
    obtain ⟨s, hs, rfl⟩ := Option.map_eq_some_iff.mp hr
    cases hroot : s.root with
    | none => rfl
    | some i =>
      have hi := h r i (root?_eq_some_iff.mpr ⟨s, hs, hroot⟩)
      simp [Pattern.uncap_eq_self_iff.mpr hi]

/-! ### Patterns that are spelled out -/

section
variable {p q : Pattern RuleId} {i : NodeId} {stands : String → RuleId → Prop} {name : RuleId → String}

theorem Unfolds.unique (hp : g.Unfolds Eq p i) (hq : g.Unfolds Eq q i) : p = q := by
  have h : p.rename id = q.rename id := Unfolds.rename_eq (fun _ _ _ hx hy => hx.trans hy.symm) hp hq
  rwa [Pattern.rename_id, Pattern.rename_id] at h

theorem WellFormed.pattern_eq (hw : g.WellFormed) (hp : g.Unfolds Eq p i) : g.pattern i = p :=
  (hw.unfolds_pattern hp.lt_size).unique hp

mutual

/-- What is read for a pattern is the pattern but for its bounds, if names stand for the rules they were made of. --/
theorem Unfolds.of_spell : ∀ {p : Pattern RuleId} {i : NodeId}, g.Unfolds stands (p.spell name) i →
    p.Refers (fun r => ∀ q, stands (name r) q → r = q) → g.Unfolds Eq p.uncap i
  | .literal .., _, hu, _ | .charRange .., _, hu, _ => hu
  | .sequence ps, i, hu, h | .choice ps, i, hu, h => by
    obtain ⟨ns, hn, hns⟩ := hu
    exact ⟨ns, hn, UnfoldsAll.of_spells hns h⟩
  | .repetition p _ _, i, hu, h | .fold p, i, hu, h => by
    obtain ⟨c, hn, hp⟩ := hu
    exact ⟨c, hn, Unfolds.of_spell (p := p) hp h⟩
  | .ruleRef r, i, hu, h => by
    obtain ⟨q, hn, hq⟩ := hu
    exact ⟨q, hn, h q hq⟩

theorem UnfoldsAll.of_spells : ∀ {ps : List (Pattern RuleId)} {ns : List NodeId},
    g.UnfoldsAll stands (Pattern.spells name ps) ns → Pattern.RefersAll (fun r => ∀ q, stands (name r) q → r = q) ps →
    g.UnfoldsAll Eq (Pattern.uncaps ps) ns
  | [], [], _, _ => trivial
  | _ :: _, _ :: _, ⟨hp, hps⟩, ⟨h, hs⟩ => ⟨Unfolds.of_spell hp h, UnfoldsAll.of_spells hps hs⟩
  | [], _ :: _, hu, _ | _ :: _, [], hu, _ => hu.elim

end

end

end

end Grammar

namespace Binary

/-! ### Files -/

section
variable {ρ : Type} (name : ρ → String)

mutual

/-- A pattern is written as it will be read. --/
theorem encodePattern_spell : ∀ (p : Pattern ρ) (t : StringTable),
    encodePattern id (p.spell name) t = encodePattern name p t
  | .literal .., _ | .charRange .., _ | .ruleRef _, _ => rfl
  | .sequence ps, t | .choice ps, t => by
    rw [Pattern.spell, encodePattern, encodePattern, encodePatterns_spells ps t, Pattern.length_spells]
  | .repetition p min max, t => by
    have hmax : (Pattern.readMax max).getD unbounded = max.getD unbounded := by
      unfold Pattern.readMax
      split
      · rename_i h
        rw [h]
        rfl
      · rfl
    rw [Pattern.spell, encodePattern, encodePattern, encodePattern_spell p t, hmax]
  | .fold p, t => by rw [Pattern.spell, encodePattern, encodePattern, encodePattern_spell p t]

theorem encodePatterns_spells : ∀ (ps : List (Pattern ρ)) (t : StringTable),
    encodePatterns id (Pattern.spells name ps) t = encodePatterns name ps t
  | [], _ => rfl
  | p :: ps, t => by
    rw [Pattern.spells, encodePatterns, encodePatterns, encodePattern_spell p t]
    dsimp only
    rw [encodePatterns_spells ps]

end

end

section
variable {g g' : Grammar}

theorem encodeRules_congr : ∀ {rules rules' : List (RuleId × String × NodeId)},
    rules'.map (spellRule g') = rules.map (spellRule g) → ∀ t, encodeRules g' rules' t = encodeRules g rules t
  | [], [], _, _ => rfl
  | (r, name, i) :: rules, (r', name', i') :: rules', h, t => by
    rw [List.map_cons, List.map_cons, List.cons.injEq] at h
    obtain ⟨hrule, hrules⟩ := h
    obtain ⟨rfl, hpattern⟩ := Prod.ext_iff.mp hrule
    have hpattern : (g'.pattern i').spell g'.ruleName = (g.pattern i).spell g.ruleName := hpattern
    have hsize : (g'.pattern i').size = (g.pattern i).size := by
      rw [← Pattern.size_spell g'.ruleName, hpattern, Pattern.size_spell]
    have hbody : ∀ t, encodePattern g'.ruleName (g'.pattern i') t = encodePattern g.ruleName (g.pattern i) t := by
      intro t
      rw [← encodePattern_spell, hpattern, encodePattern_spell]
    simp only [encodeRules, hsize, hbody, encodeRules_congr hrules]
    rfl
  | [], _ :: _, h, _ | _ :: _, [], h, _ => by cases h

/-- Grammars of one name and one outline, as a file keeps it, are saved as one file. --/
theorem encode_congr (hname : g'.name = g.name) (h : g'.savedOutline = g.savedOutline) : encode g' = encode g := by
  have hruleName : g'.ruleName = g.ruleName := by
    refine Grammar.ruleName_congr ?_
    rw [← Grammar.names_savedOutline, h, Grammar.names_savedOutline]
  have hcomplete : ∀ g : Grammar, g.isComplete = g.savedOutline.all fun e => e.2.isSome := by
    intro g
    rw [Grammar.isComplete, Grammar.savedOutline, Grammar.outline, List.map_map, List.all_map, ← Array.all_toList]
    refine congrArg₂ _ rfl (funext fun s => ?_)
    simp
  have hundefined : ∀ g : Grammar, g.undefinedNames = (g.savedOutline.filter fun e => e.2.isNone).map Prod.fst := by
    intro g
    rw [Grammar.undefinedNames, Grammar.savedOutline, Grammar.outline, List.map_map, List.filter_map, List.map_map]
    refine congrArg₂ _ rfl (congrArg₂ _ (funext fun s => ?_) rfl)
    simp
  have hrules : g'.rules.map (spellRule g') = g.rules.map (spellRule g) := by
    have hspell : ∀ g : Grammar, g.rules.map (spellRule g) =
        g.savedOutline.filterMap fun e => e.2.map fun p => (e.1, p.spell g.ruleName) := by
      intro g
      refine (g.map_rules fun name p => (name, p.spell g.ruleName)).trans ?_
      rw [Grammar.savedOutline, List.filterMap_map]
      refine congrArg (List.filterMap · _) (funext fun e => ?_)
      simp [Function.comp_def]
    rw [hspell, hspell, h, hruleName]
  rw [encode, encode, hcomplete, hcomplete, hundefined, hundefined, hname, h]
  simp only [encodeRules_congr hrules]

theorem Restores.outline_eq (hr : Restores g g') (hw : g.WellFormed) (hc : g.isComplete = true) (hw' : g'.WellFormed) :
    g'.outline = g.savedOutline := by
  refine List.ext_getElem? fun r => ?_
  have hname : g'.slots[r]?.map Slot.name = g.slots[r]?.map Slot.name := by
    rw [← Array.getElem?_map, ← Array.getElem?_map, hr.names]
  rw [Grammar.savedOutline, List.getElem?_map, Grammar.getElem?_outline, Grammar.getElem?_outline]
  cases hs : g.slots[r]? with
  | none =>
    rw [hs] at hname
    rw [Option.map_eq_none_iff.mp hname]
    rfl
  | some s =>
    rw [hs] at hname
    obtain ⟨s', hs', hname⟩ := Option.map_eq_some_iff.mp hname
    obtain ⟨i, hi⟩ := Option.isSome_iff_exists.mp (Grammar.isComplete_iff.mp hc r (Array.getElem?_eq_some_iff.mp hs).1)
    obtain ⟨i', hi', hunf⟩ := hr.roots r i hi
    have hpattern : g'.pattern i' = (g.pattern i).uncap := by
      refine hw'.pattern_eq (hunf.of_spell ?_)
      refine (hw.refers (hw.unfolds_pattern (hw.roots r i hi))).mono fun q hq q' hq' => ?_
      exact Option.some.inj ((stands_ruleName hw hq).symm.trans hq')
    have hsi : s.root = some i := by rwa [Grammar.root?, hs] at hi
    have hsi' : s'.root = some i' := by rwa [Grammar.root?, hs'] at hi'
    simp [hs', hname, hsi, hsi', hpattern]

theorem Restores.optimize (hr : Restores g g') : Restores g g'.optimize where
  name := hr.name
  names := hr.names
  roots r i hi := by
    obtain ⟨i', hi', hunf⟩ := hr.roots r i hi
    have hnodes : g'.optimize.nodes = g'.nodes := rfl
    exact ⟨i', hi', hunf.grow fun j n h => hnodes ▸ h⟩

/-- What is saved and read back has the name of the grammar, and the outline that a file keeps. --/
theorem outline_decode_encode (hw : g.WellFormed) {bytes : List UInt8} (h : encode g = .ok bytes)
    (hd : decode bytes = .ok g') : g'.name = g.name ∧ g'.outline = g.savedOutline := by
  have hw' := (wellFormed_decode hd).1
  obtain rfl := eq_restored hw h hd
  have hc := ((encode_eq_ok g).mp h).1
  have hr := (restores_restored hw hc).optimize
  exact ⟨hr.name, hr.outline_eq hw hc hw'⟩

end

end Binary
end Abnf
