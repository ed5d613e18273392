import Abnf.Proofs.Binary.Acceptance
import Abnf.Proofs.Binary.Outline

/-! Saving what has been read. A file may hold strings that nothing uses, spell a name in the records otherwise than in
    the index, or set flags that mean nothing; of all this nothing is left in the grammar. So reading and saving brings a
    file into a form that does not change any more (`encode_decode_stable`): a grammar that was read has no pattern that
    is too high for a reader, and no bound that a file cannot say, and its outline is all that the file depends on. -/

namespace Abnf.Binary

section
variable {S : UInt32 → List UInt8 → Prop}

mutual

/-- Bytes do not spell a bound that is the greatest word. --/
theorem Encodes.uncapped : ∀ {p : Pattern String} {bytes : List UInt8}, Encodes S p bytes → p.uncapped = true
  | .literal .., _, _ | .charRange .., _, _ | .ruleRef _, _, _ => rfl
  | .sequence ps, _, ⟨_, _, _, _, h⟩ | .choice ps, _, ⟨_, _, _, _, h⟩ => EncodesAll.uncappeds h
  | .repetition p _ max, _, ⟨m, _, _, hmax, h⟩ => by
    have hp : p.uncapped = true := Encodes.uncapped h
    rw [Pattern.uncapped, hp, Bool.and_true, bne_iff_ne, hmax]
    split
    · exact nofun
    · exact fun heq => absurd (Option.some.inj heq) ‹_›
  | .fold p, _, ⟨_, _, h⟩ => Encodes.uncapped (p := p) h

theorem EncodesAll.uncappeds : ∀ {ps : List (Pattern String)} {bytes : List UInt8}, EncodesAll S ps bytes →
    Pattern.uncappeds ps = true
  | [], _, _ => rfl
  | _ :: _, _, ⟨_, _, _, h, hs⟩ => by rw [Pattern.uncappeds, Encodes.uncapped h, EncodesAll.uncappeds hs, Bool.and_true]

end

theorem Records.Spell.patterns : ∀ {names : List String} {rules : List (String × Pattern String)} {bytes : List UInt8},
    Records.Spell S names rules bytes → ∀ rule ∈ rules, rule.2.height ≤ maxDepth + 1 ∧ rule.2.uncapped = true
  | [], [], _, _, _, hrule => by cases hrule
  | _ :: _, (_, _) :: _, _, ⟨_, _, _, _, _, _, hp, hheight, hs⟩, rule, hrule => by
    rcases List.mem_cons.mp hrule with rfl | hrule
    · exact ⟨hheight, hp.uncapped⟩
    · exact hs.patterns rule hrule
  | [], _ :: _, _, h, _, _ | _ :: _, [], _, h, _, _ => h.elim

end

/-- What is read could be said in a file. --/
theorem patterns_decode {bytes : List UInt8} {g : Grammar} (h : decode bytes = .ok g) {r : RuleId} {i : NodeId}
    (hi : g.root? r = some i) : (g.pattern i).height ≤ maxDepth + 1 ∧ (g.pattern i).uncapped = true := by
  have hw := (wellFormed_decode h).1
  obtain ⟨f, hf, rfl⟩ := valid_of_decode h
  obtain rfl : _ = g := Except.ok.inj ((decode_of_valid hf).symm.trans h)
  have hdes := describes_built hf
  obtain ⟨s, hs, -⟩ := Grammar.root?_eq_some_iff.mp hi
  have hlt : r < f.rules.length := by
    have hnames := congrArg List.length hdes.names
    rw [List.length_map, Array.length_toList] at hnames
    rw [hf.spelled.sameNames.length_eq, ← hnames]
    exact (Array.getElem?_eq_some_iff.mp hs).1
  obtain ⟨i', hi', hunf⟩ := hdes.trees r _ (List.getElem?_eq_getElem hlt)
  obtain rfl : i = i' := Option.some.inj (hi.symm.trans hi')
  -- The pattern of the node and the tree of the record differ in nothing but their marks for rules.
  have htree := Grammar.treeAt_eq hw hunf
  obtain ⟨hheight, huncapped⟩ := hf.spelled.patterns _ (List.getElem_mem hlt)
  rw [← Pattern.height_rename foldCase, ← htree, Grammar.treeAt, Pattern.height_rename, Pattern.height_rename] at hheight
  rw [← Pattern.uncapped_rename foldCase, ← htree, Grammar.treeAt, Pattern.uncapped_rename, Pattern.uncapped_rename]
    at huncapped
  exact ⟨hheight, huncapped⟩

/-- A grammar that was saved and read back is saved as the same file again. --/
theorem encode_of_decode_encode {g g' : Grammar} (hw : g.WellFormed) {bytes : List UInt8} (h : encode g = .ok bytes)
    (hd : decode bytes = .ok g') : encode g' = .ok bytes := by
  obtain ⟨hname, houtline⟩ := outline_decode_encode hw h hd
  rw [encode_congr hname ?_, h]
  have huncap : ∀ e : String × Option (Pattern RuleId),
      (e.1, (e.2.map Pattern.uncap).map Pattern.uncap) = (e.1, e.2.map Pattern.uncap) := by
    intro e
    rw [Option.map_map, funext Pattern.uncap_uncap (f := Pattern.uncap ∘ Pattern.uncap)]
  rw [Grammar.savedOutline, houtline, Grammar.savedOutline, List.map_map]
  exact List.map_congr_left fun e _ => huncap e

/-- Reading normalises, and saving again is stable. A grammar that was read from any file is saved, and if the new file is
    not too long for a word it is read back: as a grammar of the same name, with the same names of rules in the same
    places and the same patterns, which is saved as the very same file. And so is any grammar that can be read back. --/
theorem encode_decode_stable :
    (∀ bytes g, decode bytes = .ok g → ∃ out, encode g = .ok out ∧ (out.length < 2 ^ 32 →
      ∃ g', decode out = .ok g' ∧ g'.name = g.name ∧ g'.outline = g.outline ∧ encode g' = .ok out)) ∧
    ∀ g : Grammar, g.WellFormed → ∀ out g', encode g = .ok out → decode out = .ok g' → encode g' = .ok out := by
  refine ⟨fun bytes g h => ?_, fun g hw out g' henc hdec => encode_of_decode_encode hw henc hdec⟩
  obtain ⟨hw, hc⟩ := wellFormed_decode h
  have henc : encode g = .ok (image g).bytes := (encode_eq_ok g).mpr ⟨hc, rfl⟩
  refine ⟨_, henc, fun hlen => ?_⟩
  obtain ⟨g', hdec⟩ := (decode_encode_iff hw henc).mpr ⟨hlen, fun r i hi => (patterns_decode h hi).1⟩
  obtain ⟨hname, houtline⟩ := outline_decode_encode hw henc hdec
  have hsame : g.savedOutline = g.outline := Grammar.savedOutline_eq_iff.mpr fun r i hi => (patterns_decode h hi).2
  exact ⟨g', hdec, hname, houtline.trans hsame, encode_of_decode_encode hw henc hdec⟩

/-- What follows the header in a file of `r = "a"`, with a string that nothing uses and a flag that means nothing. --/
def spareSections : Sections where
  header := {}
  blob := [0x67, 0x72, 0x61, 0x3F]
  offsets := [0, 1, 2, 3, 4]
  index := [1]
  records := [0, 0, 0, 1, 1, 3, 0, 0, 0, 2]

def spare : List UInt8 :=
  { spareSections with
    header := { checksum := Crc32.checksum spareSections.content, totalSize := 102, stringBytes := 4, stringCount := 4,
                ruleCount := 1, nodeCount := 1, name := 0 } : Sections }.bytes

/-- The file is read, and saved without what means nothing; then it stays. --/
theorem encode_decode_stable_spare : ∃ g out g', decode spare = .ok g ∧ encode g = .ok out ∧ out.length < spare.length ∧
    decode out = .ok g' ∧ g'.outline = g.outline ∧ encode g' = .ok out := by
  have hread : ((decode spare).toOption.bind fun g => (encode g).toOption.map List.length) = some 97 := by decide +kernel
  obtain ⟨g, hdec, hread⟩ := Option.bind_eq_some_iff.mp hread
  obtain ⟨out, henc, hlen⟩ := Option.map_eq_some_iff.mp hread
  rw [toOption_eq_some] at hdec henc
  obtain ⟨out', henc', hstable⟩ := encode_decode_stable.1 _ _ hdec
  obtain rfl : out = out' := Except.ok.inj (henc.symm.trans henc')
  obtain ⟨g', hdec', -, houtline, -⟩ := hstable (by omega)
  have hspare : spare.length = 102 := by decide +kernel
  have hw := (wellFormed_decode hdec).1
  exact ⟨g, out, g', hdec, henc, by omega, hdec', houtline, encode_decode_stable.2 g hw out g' henc hdec'⟩

end Abnf.Binary
