import Abnf.Proofs.Binary.Records
import Abnf.Proofs.Binary.Sections
import Abnf.Proofs.Grammar.Pattern

/-! Saving a grammar and reading it back. The sections of a file are found where they were written, so a file that is
    not too long is read back unless some pattern nests too deep (`decode_encode_iff`). What is read back has the
    same names in the same places, and its rules have the patterns that were written
    (`Restores`). -/

namespace Abnf

namespace Binary

/-! ### Files -/

section
variable (g : Grammar)

/-- The string that is the name of the grammar, and the table that begins with it. --/
def nameEntry : UInt32 × StringTable := StringTable.empty.intern (Utf8.bytes g.name)

def records : Records := (encodeRules g g.rules (nameEntry g).2).1

/-- All strings of the file. --/
def table : StringTable := (encodeRules g g.rules (nameEntry g).2).2

/-- What follows the header. --/
def content : List UInt8 :=
  (table g).blob ++ (table g).offsets.flatMap Word.bytes ++ (records g).index.flatMap Word.bytes ++ (records g).bytes

def header : Header :=
  { checksum := Crc32.checksum (content g), totalSize := UInt32.ofNat (headerSize + (content g).length),
    stringBytes := UInt32.ofNat (table g).blob.length, stringCount := UInt32.ofNat (table g).entries.size,
    ruleCount := UInt32.ofNat (records g).index.length, nodeCount := UInt32.ofNat (records g).nodeCount,
    name := (nameEntry g).1 }

def image : Image := ⟨header g, (header g).bytes ++ content g⟩

theorem encode_eq_ok {bytes : List UInt8} : encode g = .ok bytes ↔ g.isComplete = true ∧ bytes = (image g).bytes := by
  have hok : g.isComplete = true → encode g = .ok (image g).bytes := by
    intro hc
    rw [encode, if_pos hc]
    rfl
  constructor
  · intro h
    by_cases hc : g.isComplete = true
    · rw [hok hc] at h
      exact ⟨hc, (Except.ok.inj h).symm⟩
    · rw [encode, if_neg hc] at h
      cases h
  · rintro ⟨hc, rfl⟩
    exact hok hc

end

/-! ### Headers and sections -/

@[simp] theorem length_header (g : Grammar) : (header g).bytes.length = headerSize := rfl

section
variable {g : Grammar}

theorem length_image : (image g).bytes.length = headerSize + ((table g).blob.length + ((table g).entries.size + 1) * 4 +
    (records g).index.length * 4 + (records g).bytes.length) := by
  simp only [image, content, List.length_append, length_header, Word.length_flatMap_bytes, StringTable.offsets,
    StringTable.length_offsetsFrom, Array.length_toList]

/-- In a file that is not too long all sizes and numbers are words. --/
theorem table_fits (h : (image g).bytes.length < 2 ^ 32) : (table g).Fits where
  size := by
    rw [length_image] at h
    omega
  blob := by
    rw [length_image] at h
    omega

theorem toNat_stringBytes (h : (image g).bytes.length < 2 ^ 32) :
    (header g).stringBytes.toNat = (table g).blob.length := UInt32.toNat_ofNat_of_lt' (table_fits h).blob

theorem toNat_stringCount (h : (image g).bytes.length < 2 ^ 32) :
    (header g).stringCount.toNat = (table g).entries.size := UInt32.toNat_ofNat_of_lt' (table_fits h).size

theorem toNat_ruleCount (h : (image g).bytes.length < 2 ^ 32) :
    (header g).ruleCount.toNat = (records g).index.length := by
  rw [length_image] at h
  exact UInt32.toNat_ofNat_of_lt' (by show _ < 2 ^ 32; omega)

theorem toNat_nodeCount (h : (image g).bytes.length < 2 ^ 32) :
    (header g).nodeCount.toNat = (records g).nodeCount := by
  have := nodeCount_le_encodeRules g g.rules (nameEntry g).2
  rw [length_image] at h
  refine UInt32.toNat_ofNat_of_lt' ?_
  show (encodeRules g g.rules (nameEntry g).2).1.nodeCount < 2 ^ 32
  unfold records at h
  omega

/-- The parts of the file. --/
def sections (g : Grammar) : Sections :=
  ⟨header g, (table g).blob, (table g).offsets, (records g).index, (records g).bytes⟩

theorem content_sections (g : Grammar) : (sections g).content = content g := by
  simp only [content, sections, Sections.content, List.append_assoc]

theorem image_sections (g : Grammar) : (sections g).image = image g := by
  rw [Sections.image, Sections.bytes, content_sections]
  rfl

theorem fit_sections (h : (image g).bytes.length < 2 ^ 32) : (sections g).Fit where
  magic := rfl
  version := rfl
  reserved := rfl
  totalSize := by
    have hbytes : (sections g).bytes = (image g).bytes := congrArg Image.bytes (image_sections g)
    have hlen : (image g).bytes.length = headerSize + (content g).length := by
      rw [image, List.length_append, length_header]
    rw [hbytes, hlen]
    exact UInt32.toNat_ofNat_of_lt' (hlen ▸ h)
  checksum := by
    rw [content_sections]
    rfl
  stringBytes := toNat_stringBytes h
  stringCount := by
    show (header g).stringCount.toNat + 1 = (table g).offsets.length
    rw [toNat_stringCount h, StringTable.offsets, StringTable.length_offsetsFrom, Array.length_toList]
  ruleCount := toNat_ruleCount h

/-- Only the length of a file can make its header unfit. --/
theorem ofBytes_image : Image.ofBytes (image g).bytes =
    if (image g).bytes.length < 2 ^ 32 then .ok (image g)
    else .error (.format (.sizeMismatch (header g).totalSize (image g).bytes.length)) := by
  by_cases h : (image g).bytes.length < 2 ^ 32
  · rw [if_pos h, ← image_sections]
    exact (fit_sections h).ofBytes
  · have hdrop : (image g).bytes.drop headerSize = content g := by
      rw [image, ← length_header g, List.drop_left]
    have hmagic : (header g).hasMagic = true := rfl
    have hversion : (header g).hasVersion = true := rfl
    have hheader : Header.ofBytes? (image g).bytes = some (header g) := Header.ofBytes?_append rfl rfl _
    have hne : (header g).totalSize.toNat ≠ (image g).bytes.length := by
      have := (header g).totalSize.toNat_lt
      omega
    rw [Image.ofBytes, hheader]
    dsimp only
    rw [hdrop, hmagic, hversion, if_neg h]
    simp [hne]

/-! ### What is read -/

theorem strings_image (h : (image g).bytes.length < 2 ^ 32) : (image g).strings = (table g).view := by
  rw [← image_sections, (fit_sections h).strings, StringTable.view, StringView.ofBytes, Word.all_flatMap_bytes]
  rfl

theorem index_image (h : (image g).bytes.length < 2 ^ 32) : (image g).index = (records g).index := by
  rw [← image_sections]
  exact (fit_sections h).imageIndex

theorem drop_recordsOffset (h : (image g).bytes.length < 2 ^ 32) :
    (image g).bytes.drop (header g).recordsOffset = (records g).bytes := by
  rw [← image_sections]
  exact (fit_sections h).drop_recordsOffset

theorem name_image (h : (image g).bytes.length < 2 ^ 32) : (image g).name = .ok g.name := by
  rw [Image.name, strings_image h]
  exact getText_intern (table_fits h) (within_encodeRules g g.rules _)

theorem ruleNames_image (h : (image g).bytes.length < 2 ^ 32) :
    (image g).ruleNames = .ok (g.rules.map fun x => x.2.1) := by
  rw [Image.ruleNames, strings_image h, index_image h]
  exact mapM_getText_index (table_fits h) g.rules _ (.refl _)

theorem readRecords_image (h : (image g).bytes.length < 2 ^ 32) :
    readRecords (image g).strings (g.rules.map fun x => x.2.1)
      ⟨(header g).recordsOffset, (image g).bytes.drop (header g).recordsOffset⟩ =
      within (rulesHeight g g.rules) (maxDepth + 1)
        (g.rules.map (spellRule g), ⟨(header g).recordsOffset + (records g).bytes.length, []⟩) := by
  have hlen : (records g).bytes.length < 2 ^ 32 := by
    rw [length_image] at h
    omega
  have hread := readRecords_encodeRules (table_fits h) g.rules (nameEntry g).2 (header g).recordsOffset [] (.refl _) hlen
  rw [List.append_nil] at hread
  rw [strings_image h, drop_recordsOffset h]
  exact hread

end

end Binary

/-! ### The grammar that is built -/

namespace Grammar

section
variable {g : Grammar}

theorem mem_rules {r : RuleId} {name : String} {i : NodeId} :
    (r, name, i) ∈ g.rules ↔ ∃ s, g.slots[r]? = some s ∧ s.name = name ∧ s.root = some i := by
  rw [rules, List.mem_filterMap]
  constructor
  · rintro ⟨⟨s, q⟩, hs, h⟩
    obtain ⟨n, hn, h⟩ := Option.map_eq_some_iff.mp h
    cases h
    rw [List.mem_zipIdx_iff_getElem?, Array.getElem?_toList] at hs
    exact ⟨s, hs, rfl, hn⟩
  · rintro ⟨s, hs, rfl, hi⟩
    refine ⟨(s, r), ?_, by simp [hi]⟩
    rw [List.mem_zipIdx_iff_getElem?, Array.getElem?_toList]
    exact hs

theorem names_rules (hc : g.isComplete = true) : (g.rules.map fun x => x.2.1) = g.slots.toList.map Slot.name := by
  have main : ∀ (l : List Slot) (k : Nat), (∀ s ∈ l, s.root.isSome = true) →
      ((l.zipIdx k).filterMap fun x => x.1.root.map fun n => (x.2, x.1.name, n)).map (fun x => x.2.1) =
        l.map Slot.name := by
    intro l
    induction l with
    | nil => exact fun _ _ => rfl
    | cons s l ih =>
      intro k h
      obtain ⟨i, hi⟩ := Option.isSome_iff_exists.mp (h s List.mem_cons_self)
      have hl := ih (k + 1) fun t ht => h t (List.mem_cons_of_mem s ht)
      rw [List.zipIdx_cons, List.filterMap_cons]
      simp only [hi, Option.map_some, List.map_cons, hl]
  refine main g.slots.toList 0 fun s hs => ?_
  exact Array.all_eq_true_iff_forall_mem.mp hc s (Array.mem_toList_iff.mp hs)

end

end Grammar

namespace Binary

/-- A grammar that has a place for each name and nothing else. --/
def named (name : String) (names : List String) : Grammar :=
  { Grammar.empty name with slots := (names.map fun n => ⟨n, none⟩).toArray }

theorem declareDistinct_eq_ok : ∀ (names : List String) (g : Grammar), (∀ n ∈ names, g.find? n = none) →
    (names.Pairwise fun a b => sameName a b = false) →
    declareDistinct g names = .ok { g with slots := g.slots ++ (names.map fun n => ⟨n, none⟩).toArray }
  | [], g, _, _ => by simp [declareDistinct]
  | n :: names, g, h, hdis => by
    obtain ⟨hne, hdis⟩ := List.pairwise_cons.mp hdis
    have hn := h n List.mem_cons_self
    have hrest : ∀ m ∈ names, (g.declare n).2.find? m = none := by
      intro m hm
      rw [Grammar.find?_eq_none_iff]
      intro r s hs
      rcases (Grammar.getElem?_declare g n r s).mp hs with hs | ⟨-, -, rfl⟩
      · exact Grammar.find?_eq_none_iff.mp (h m (List.mem_cons_of_mem n hm)) r s hs
      · exact hne m hm
    rw [declareDistinct, hn]
    dsimp only
    rw [declareDistinct_eq_ok names _ hrest hdis, Grammar.declare, hn]
    simp

theorem declareDistinct_empty {name : String} {names : List String}
    (hdis : names.Pairwise fun a b => sameName a b = false) :
    declareDistinct (.empty name) names = .ok (named name names) := by
  have hnone : ∀ n ∈ names, (Grammar.empty name).find? n = none := by
    intro n _
    simp [Grammar.find?, Grammar.empty]
  rw [declareDistinct_eq_ok names _ hnone hdis, named, Grammar.empty, Array.empty_append]

/-- The grammar that is built from names and records. --/
def built (name : String) (names : List String) (rules : List (String × Pattern String)) : Grammar :=
  rules.foldl (fun g x => g.definePattern x.1 x.2) (named name names)

/-- The grammar that is built from the rules of another and what is said of their patterns. --/
def rebuilt (g : Grammar) (name : String) (f : Pattern RuleId → Pattern String) : Grammar :=
  built name (g.rules.map fun x => x.2.1) (g.rules.map fun x => (x.2.1, f (g.pattern x.2.2)))

/-- The grammar that is built from what is read. --/
def restored (g : Grammar) : Grammar :=
  (g.rules.map (spellRule g)).foldl (fun g x => g.definePattern x.1 x.2) (named g.name (g.rules.map fun x => x.2.1))

/-- A grammar has the name, the names in their places, and the patterns of rules of another. --/
structure Restores (g g' : Grammar) : Prop where
  name : g'.name = g.name
  names : g'.slots.map Slot.name = g.slots.map Slot.name
  roots : ∀ r i, g.root? r = some i →
    ∃ i', g'.root? r = some i' ∧ g'.Unfolds g.Stands ((g.pattern i).spell g.ruleName) i'

section
variable {ρ : Type} {name : ρ → String} {P : String → Prop}

mutual

theorem refers_spell : ∀ {p : Pattern ρ}, p.Refers (fun r => P (name r)) → (p.spell name).Refers P
  | .literal .., _ | .charRange .., _ => trivial
  | .sequence _, h | .choice _, h => refersAll_spells h
  | .repetition p _ _, h | .fold p, h => refers_spell (p := p) h
  | .ruleRef _, h => h

theorem refersAll_spells : ∀ {ps : List (Pattern ρ)}, Pattern.RefersAll (fun r => P (name r)) ps →
    Pattern.RefersAll P (Pattern.spells name ps)
  | [], _ => trivial
  | _ :: _, ⟨h, hs⟩ => ⟨refers_spell h, refersAll_spells hs⟩

end

end

section
variable {g : Grammar}

theorem stands_ruleName (hw : g.WellFormed) {r : RuleId} (hr : r < g.slots.size) : g.Stands (g.ruleName r) r := by
  have hs : g.slots[r]? = some g.slots[r] := Array.getElem?_eq_getElem hr
  rw [Grammar.ruleName_eq hs]
  exact hw.distinct.find?_name hs

theorem pairwise_names (hw : g.WellFormed) (hc : g.isComplete = true) :
    (g.rules.map fun x => x.2.1).Pairwise fun a b => sameName a b = false :=
  (Grammar.names_rules hc).symm ▸ hw.distinct.pairwise

section
variable {f : Pattern RuleId → Pattern String}
  (hf : ∀ {p : Pattern RuleId} {P : String → Prop}, p.Refers (fun r => P (g.ruleName r)) → (f p).Refers P)
include hf

/-- If nothing else is referred to in what is said of patterns, the rules are in their places again, and what is said of
    the pattern of a rule is what the rule has. --/
theorem rebuilt_spec (hw : g.WellFormed) (hc : g.isComplete = true) (name : String) :
    (rebuilt g name f).name = name ∧ (rebuilt g name f).slots.map Slot.name = g.slots.map Slot.name ∧
      ∀ r i, g.root? r = some i →
        ∃ i', (rebuilt g name f).root? r = some i' ∧ (rebuilt g name f).Unfolds g.Stands (f (g.pattern i)) i' := by
  have hnames : (named name (g.rules.map fun x => x.2.1)).slots.map Slot.name = g.slots.map Slot.name := by
    rw [Grammar.names_rules hc, named, ← Array.toList_inj]
    simp [Function.comp_def]
  have hstands := Grammar.stands_congr hnames
  -- Every name is declared before the first pattern is added, so references find the places they had.
  have hrules : ∀ x ∈ g.rules.map fun x => (x.2.1, f (g.pattern x.2.2)),
      (∃ r, (named name (g.rules.map fun x => x.2.1)).Stands x.1 r) ∧
        x.2.Refers fun n => ∃ r, (named name (g.rules.map fun x => x.2.1)).Stands n r := by
    intro x hx
    obtain ⟨⟨r, n, i⟩, hmem, rfl⟩ := List.mem_map.mp hx
    obtain ⟨s, hs, rfl, hi⟩ := Grammar.mem_rules.mp hmem
    rw [hstands]
    refine ⟨⟨r, hw.distinct.find?_name hs⟩, hf ?_⟩
    refine Pattern.Refers.mono (fun q hq => ⟨q, stands_ruleName hw hq⟩) (hw.refers (hw.unfolds_pattern ?_))
    exact hw.roots r i (Grammar.root?_eq_some_iff.mpr ⟨s, hs, hi⟩)
  have hdis : ((g.rules.map fun x => (x.2.1, f (g.pattern x.2.2))).map Prod.fst).Pairwise
      fun a b => sameName a b = false := by
    rw [List.map_map]
    exact pairwise_names hw hc
  obtain ⟨hfill, hroots, -⟩ := Grammar.definePatterns_spec _ _ hrules hdis
  rw [hstands] at hroots
  refine ⟨hfill.name, hfill.names.trans hnames, fun r i hi => ?_⟩
  obtain ⟨s, hs, hsi⟩ := Grammar.root?_eq_some_iff.mp hi
  have hmem : (s.name, f (g.pattern i)) ∈ g.rules.map fun x => (x.2.1, f (g.pattern x.2.2)) :=
    List.mem_map.mpr ⟨_, Grammar.mem_rules.mpr ⟨s, hs, rfl, hsi⟩, rfl⟩
  obtain ⟨q, i', hq, hi', hunf⟩ := hroots _ hmem
  obtain rfl : r = q := Option.some.inj ((hw.distinct.find?_name hs).symm.trans hq)
  exact ⟨i', hi', hunf⟩

theorem isComplete_rebuilt (hw : g.WellFormed) (hc : g.isComplete = true) (name : String) :
    (rebuilt g name f).isComplete = true := by
  obtain ⟨-, hnames, hroots⟩ := rebuilt_spec hf hw hc name
  have hsize := congrArg Array.size hnames
  rw [Array.size_map, Array.size_map] at hsize
  refine Grammar.isComplete_iff.mpr fun r hr => ?_
  obtain ⟨i, hi⟩ := Option.isSome_iff_exists.mp (Grammar.isComplete_iff.mp hc r (hsize ▸ hr))
  obtain ⟨i', hi', -⟩ := hroots r i hi
  exact Option.isSome_iff_exists.mpr ⟨i', hi'⟩

end

/-- All rules are read, and each has the pattern that was written. --/
theorem restores_restored (hw : g.WellFormed) (hc : g.isComplete = true) : Restores g (restored g) := by
  obtain ⟨hname, hnames, hroots⟩ := rebuilt_spec (fun h => refers_spell h) hw hc g.name
  exact ⟨hname, hnames, hroots⟩

theorem isComplete_restored (hw : g.WellFormed) (hc : g.isComplete = true) : (restored g).isComplete = true :=
  isComplete_rebuilt (fun h => refers_spell h) hw hc g.name

theorem read_image (hw : g.WellFormed) (hc : g.isComplete = true) (h : (image g).bytes.length < 2 ^ 32) :
    (image g).read = within (rulesHeight g g.rules) (maxDepth + 1) (restored g) := by
  rw [Image.read]
  dsimp only
  rw [name_image h, ok_bind, ruleNames_image h, ok_bind, declareDistinct_empty (pairwise_names hw hc), ok_bind]
  rw [show (image g).header = header g from rfl, readRecords_image h, within_bind, within]
  by_cases hheight : rulesHeight g g.rules ≤ maxDepth + 1
  · have hcount : Pattern.sizes ((g.rules.map (spellRule g)).map Prod.snd) = (header g).nodeCount.toNat := by
      rw [toNat_nodeCount h]
      exact (nodeCount_encodeRules g g.rules _).symm
    rw [if_pos hheight, if_pos hheight]
    simp only [List.isEmpty_nil, Bool.not_true, Bool.false_eq_true, if_false, hcount, ne_eq, not_true_eq_false]
    rw [show (g.rules.map (spellRule g)).foldl (fun g x => g.definePattern x.1 x.2)
      (named g.name (g.rules.map fun x => x.2.1)) = restored g from rfl, if_pos (isComplete_restored hw hc)]
  · rw [if_neg hheight, if_neg hheight]

/-- A grammar that is not too long to be saved is read back, unless a pattern nests too deep. --/
theorem decode_image (hw : g.WellFormed) (hc : g.isComplete = true) (h : (image g).bytes.length < 2 ^ 32) :
    decode (image g).bytes =
      if rulesHeight g g.rules ≤ maxDepth + 1 then .ok (restored g).optimize else .error (.format .nestingTooDeep) := by
  rw [decode, ofBytes_image, if_pos h, ok_bind, Image.decode, read_image hw hc h, within]
  by_cases hheight : rulesHeight g g.rules ≤ maxDepth + 1
  · rw [if_pos hheight, if_pos hheight]
  · rw [if_neg hheight, if_neg hheight]

theorem rulesHeight_le : rulesHeight g g.rules ≤ maxDepth + 1 ↔
    ∀ r i, g.root? r = some i → (g.pattern i).height ≤ maxDepth + 1 := by
  rw [rulesHeight_le_iff]
  constructor
  · intro h r i hi
    obtain ⟨s, hs, hsi⟩ := Grammar.root?_eq_some_iff.mp hi
    exact h _ (Grammar.mem_rules.mpr ⟨s, hs, rfl, hsi⟩)
  · rintro h ⟨r, n, i⟩ hx
    obtain ⟨s, hs, -, hsi⟩ := Grammar.mem_rules.mp hx
    exact h r i (Grammar.root?_eq_some_iff.mpr ⟨s, hs, hsi⟩)

end

/-! ### Nesting -/

/-- What is saved is read back just if the file is not longer than a word can say and no rule nests deeper than a
    reader follows. --/
theorem decode_encode_iff {g : Grammar} (hw : g.WellFormed) {bytes : List UInt8} (h : encode g = .ok bytes) :
    (∃ g', decode bytes = .ok g') ↔
      bytes.length < 2 ^ 32 ∧ ∀ r i, g.root? r = some i → (g.pattern i).height ≤ maxDepth + 1 := by
  obtain ⟨hc, rfl⟩ := (encode_eq_ok g).mp h
  by_cases hlen : (image g).bytes.length < 2 ^ 32
  · rw [decode_image hw hc hlen, ← rulesHeight_le]
    by_cases hheight : rulesHeight g g.rules ≤ maxDepth + 1
    · rw [if_pos hheight]
      exact ⟨fun _ => ⟨hlen, hheight⟩, fun _ => ⟨_, rfl⟩⟩
    · rw [if_neg hheight]
      exact ⟨(fun ⟨_, h⟩ => by cases h), fun h => absurd h.2 hheight⟩
  · rw [decode, ofBytes_image, if_neg hlen]
    exact ⟨(fun ⟨_, h⟩ => by cases h), fun h => absurd h.1 hlen⟩

/-- The grammar of a rule in so many brackets. --/
def nested (n : Nat) : Grammar :=
  ⟨"nested", (Node.literal [0x61] false :: (List.range n).map Node.fold).toArray, #[⟨"s", some n⟩], none⟩

section
variable {n : Nat}

theorem getElem?_nested {i : Nat} : (nested n).nodes[i + 1]? = if i < n then some (.fold i) else none := by
  simp only [nested, List.getElem?_toArray, List.getElem?_cons_succ, List.getElem?_map]
  split <;> simp_all

theorem slots_nested {r : RuleId} {s : Slot} (h : (nested n).slots[r]? = some s) : r = 0 ∧ s = ⟨"s", some n⟩ := by
  cases r with
  | zero =>
    cases h
    exact ⟨rfl, rfl⟩
  | succ r => cases h

theorem wellFormed_nested (n : Nat) : (nested n).WellFormed where
  distinct r q s t hs ht _ := (slots_nested hs).1.trans (slots_nested ht).1.symm
  parts i m h c hc := by
    cases i with
    | zero =>
      cases h
      cases hc
    | succ i =>
      rw [getElem?_nested] at h
      split at h
      · cases h
        exact List.mem_singleton.mp hc ▸ Nat.lt_succ_self i
      · cases h
  referred m hm r hr := by
    rcases List.mem_cons.mp (List.mem_toArray.mp hm) with rfl | hm
    · cases hr
    · obtain ⟨i, -, rfl⟩ := List.mem_map.mp hm
      cases hr
  roots r i h := by
    obtain ⟨s, hs, hi⟩ := Grammar.root?_eq_some_iff.mp h
    obtain ⟨-, rfl⟩ := slots_nested hs
    cases hi
    simp [nested]
  sets _ h := by cases h

theorem height_nested : ∀ {i : NodeId} {p : Pattern RuleId}, (nested n).Unfolds Eq p i → p.height = i + 1
  | 0, p, h => by
    have hnode : (nested n).nodes[0]? = some (.literal [0x61] false) := rfl
    cases p with
    | literal => rfl
    | charRange =>
      rw [Grammar.Unfolds, hnode] at h
      cases h
    | _ =>
      rw [Grammar.Unfolds, hnode] at h
      obtain ⟨_, h, -⟩ := h
      cases h
  | i + 1, p, h => by
    have hnode : ∀ m, (nested n).nodes[i + 1]? = some m → m = .fold i := by
      intro m hm
      rw [getElem?_nested] at hm
      split at hm
      · exact (Option.some.inj hm).symm
      · cases hm
    cases p with
    | literal | charRange => cases hnode _ h
    | fold p =>
      obtain ⟨m, hm, hp⟩ := h
      cases hnode _ hm
      exact congrArg (· + 1) (height_nested hp)
    | _ =>
      obtain ⟨_, h, -⟩ := h
      cases hnode _ h

theorem height_pattern_nested (n : Nat) : ((nested n).pattern n).height = n + 1 :=
  height_nested ((wellFormed_nested n).unfolds_pattern ((wellFormed_nested n).roots 0 n rfl))

end

/-- A thousand brackets and some are saved and not read back. --/
theorem decode_nested : ∃ bytes, encode (nested 1025) = .ok bytes ∧ ¬∃ g', decode bytes = .ok g' := by
  have hw := wellFormed_nested 1025
  have henc : encode (nested 1025) = .ok (image (nested 1025)).bytes :=
    (encode_eq_ok _).mpr ⟨by simp [Grammar.isComplete, nested], rfl⟩
  refine ⟨_, henc, fun h => ?_⟩
  have hle := ((decode_encode_iff hw henc).mp h).2 0 1025 rfl
  rw [height_pattern_nested, maxDepth] at hle
  omega

end Binary
end Abnf
