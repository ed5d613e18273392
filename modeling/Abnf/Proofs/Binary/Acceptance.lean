import Abnf.Proofs.Binary.Decode
import Abnf.Proofs.Binary.Reading
import Abnf.Proofs.Binary.RoundTrip

/-! The files that are read. A file is read just if its parts fit and what they say holds together, and then the grammar
    is what the file says (`decode_iff`). That trees refer to names of the index only is seen at the end: a name that is
    not there would have made a place for itself, and no record would have filled it (`isComplete_built`). -/

namespace Abnf

/-! ### Places for names -/

namespace Grammar

section
variable {g : Grammar}

mutual

theorem root?_addPattern : ∀ (p : Pattern String) (g : Grammar) (q : RuleId), (g.addPattern p).2.root? q = g.root? q
  | .literal .., _, _ | .charRange .., _, _ => rfl
  | .sequence ps, g, q | .choice ps, g, q => root?_addPatterns ps g q
  | .repetition p _ _, g, q | .fold p, g, q => root?_addPattern p g q
  | .ruleRef name, g, q => root?_declare g name q

theorem root?_addPatterns : ∀ (ps : List (Pattern String)) (g : Grammar) (q : RuleId),
    (g.addPatterns ps).2.root? q = g.root? q
  | [], _, _ => rfl
  | p :: ps, g, q => (root?_addPatterns ps _ q).trans (root?_addPattern p g q)

end

mutual

/-- A pattern that has been added refers to names that have places. --/
theorem WellFormed.refers_addPattern : ∀ (p : Pattern String) {g : Grammar}, g.WellFormed →
    p.Refers fun name => ∃ r, (g.addPattern p).2.Stands name r
  | .literal .., _, _ | .charRange .., _, _ => trivial
  | .sequence ps, _, hw | .choice ps, _, hw => WellFormed.refers_addPatterns ps hw
  | .repetition p _ _, _, hw | .fold p, _, hw => WellFormed.refers_addPattern p hw
  | .ruleRef name, g, _ => ⟨_, find?_declare g name⟩

theorem WellFormed.refers_addPatterns : ∀ (ps : List (Pattern String)) {g : Grammar}, g.WellFormed →
    Pattern.RefersAll (fun name => ∃ r, (g.addPatterns ps).2.Stands name r) ps
  | [], _, _ => trivial
  | p :: ps, g, hw => by
    obtain ⟨hw', -, -⟩ := WellFormed.addPattern p hw
    obtain ⟨-, hgrow, -⟩ := WellFormed.addPatterns ps hw'
    refine ⟨(WellFormed.refers_addPattern p hw).mono ?_, WellFormed.refers_addPatterns ps hw'⟩
    rintro name ⟨r, hr⟩
    exact ⟨r, hgrow.find? hr⟩

end

/-- Defining a declared rule gives no other rule a root, and makes places for the names that its pattern refers to. --/
theorem definePattern_grows (hw : g.WellFormed) {name : String} {r : RuleId} (hr : g.Stands name r)
    (p : Pattern String) : g.Grows (g.definePattern name p) ∧
      (∀ q, q ≠ r → (g.definePattern name p).root? q = g.root? q) ∧
      p.Refers fun other => ∃ q, (g.definePattern name p).Stands other q := by
  obtain ⟨-, hgrow, -⟩ := WellFormed.addPattern p hw
  have hdefine := grows_define (g.addPattern p).2 name (g.addPattern p).1
  refine ⟨hgrow.trans hdefine, fun q hq => ?_, (hw.refers_addPattern p).mono ?_⟩
  · rw [definePattern]
    dsimp only
    rw [define, declare_eq_self _ (hgrow.find? hr)]
    refine (root?_setRoot _ _ _ q).trans ?_
    rw [if_neg fun h => hq h.1.symm, root?_addPattern]
  · rintro other ⟨q, hq⟩
    exact ⟨q, hdefine.find? hq⟩

theorem definePatterns_grow {size : Nat} : ∀ (rules : List (String × Pattern String)) {g : Grammar},
    g.WellFormed → (∀ x ∈ rules, ∃ r < size, g.Stands x.1 r) →
    g.Grows (rules.foldl (fun g x => g.definePattern x.1 x.2) g) ∧
      (∀ q, size ≤ q → (rules.foldl (fun g x => g.definePattern x.1 x.2) g).root? q = g.root? q) ∧
      ∀ x ∈ rules, x.2.Refers fun name => ∃ r, (rules.foldl (fun g x => g.definePattern x.1 x.2) g).Stands name r
  | [], g, _, _ => ⟨.refl g, fun _ _ => rfl, nofun⟩
  | (name, p) :: rules, g, hw, hrules => by
    obtain ⟨r, hlt, hr⟩ := hrules (name, p) List.mem_cons_self
    obtain ⟨hgrow, hroot, hrefers⟩ := definePattern_grows hw hr p
    obtain ⟨hgrow', hroot', hrefers'⟩ := definePatterns_grow rules (hw.definePattern name p) fun x hx => by
      obtain ⟨q, hq, hx⟩ := hrules x (List.mem_cons_of_mem _ hx)
      exact ⟨q, hq, hgrow.find? hx⟩
    rw [List.foldl_cons]
    refine ⟨hgrow.trans hgrow', fun q hq => (hroot' q hq).trans (hroot q (Nat.ne_of_gt (Nat.lt_of_lt_of_le hlt hq))), fun x hx => ?_⟩
    rcases List.mem_cons.mp hx with rfl | hx
    · refine hrefers.mono ?_
      rintro other ⟨q, hq⟩
      exact ⟨q, hgrow'.find? hq⟩
    · exact hrefers' x hx

end

end Grammar

namespace Binary

open Grammar

/-! ### Records and names -/

theorem Records.Spell.sameNames {S : UInt32 → List UInt8 → Prop} : ∀ {names : List String}
    {rules : List (String × Pattern String)} {bytes : List UInt8}, Records.Spell S names rules bytes →
    List.Forall₂ (fun rule name => sameName rule.1 name = true) rules names
  | [], [], _, _ => .nil
  | _ :: _, _ :: _, _, ⟨_, _, _, _, _, hsame, _, _, h⟩ => .cons hsame h.sameNames
  | [], _ :: _, _, h | _ :: _, [], _, h => h.elim

theorem size_named (name : String) (names : List String) : (named name names).slots.size = names.length := by
  simp [named]

section
variable {name : String} {names : List String} (hdis : names.Pairwise fun a b => sameName a b = false)
include hdis

theorem wellFormed_named : (named name names).WellFormed :=
  wellFormed_declareDistinct (.empty name) (declareDistinct_empty hdis)

theorem stands_named {r : RuleId} {n m : String} (hr : names[r]? = some m) (hsame : sameName n m = true) :
    (named name names).Stands n r := by
  have hs : (named name names).slots[r]? = some ⟨m, none⟩ := by simp [named, hr]
  rw [Stands, find?_sameName hsame]
  exact (wellFormed_named hdis).distinct.find?_name hs

theorem exists_stands_named {n : String} :
    (∃ r, (named name names).Stands n r) ↔ ∃ m ∈ names, sameName m n = true := by
  constructor
  · rintro ⟨r, hr⟩
    obtain ⟨⟨s, hs, hsame⟩, -⟩ := find?_eq_some_iff.mp hr
    obtain ⟨m, hm, rfl⟩ : ∃ m, names[r]? = some m ∧ (⟨m, none⟩ : Slot) = s := by simpa [named] using hs
    exact ⟨m, List.mem_of_getElem? hm, hsame⟩
  · rintro ⟨m, hm, hsame⟩
    obtain ⟨r, hr⟩ := List.mem_iff_getElem?.mp hm
    exact ⟨r, stands_named hdis hr (sameName_comm m n ▸ hsame)⟩

section
variable {rules : List (String × Pattern String)}
  (hsame : List.Forall₂ (fun rule name => sameName rule.1 name = true) rules names)
include hsame

theorem stands_of_record {k : Nat} {x : String × Pattern String} (hx : rules[k]? = some x) :
    (named name names).Stands x.1 k := by
  obtain ⟨hlt, rfl⟩ := List.getElem?_eq_some_iff.mp hx
  have hlt' : k < names.length := hsame.length_eq ▸ hlt
  exact stands_named hdis (List.getElem?_eq_getElem hlt') (hsame.get hlt hlt')

theorem pairwise_records : (rules.map Prod.fst).Pairwise fun a b => sameName a b = false := by
  rw [List.pairwise_map, List.pairwise_iff_getElem]
  intro i j hi hj hij
  have hi' : i < names.length := hsame.length_eq ▸ hi
  have hj' : j < names.length := hsame.length_eq ▸ hj
  refine Bool.eq_false_iff.mpr fun h => Bool.eq_false_iff.mp (List.pairwise_iff_getElem.mp hdis i j hi' hj' hij) ?_
  have hni := sameName_iff.mp (hsame.get hi hi')
  have hnj := sameName_iff.mp (hsame.get hj hj')
  rw [sameName_iff] at h ⊢
  exact hni.symm.trans (h.trans hnj)

variable (name) in
/-- What the records say of rules is what the grammar has of them, if they refer to names of the index only. --/
theorem fills_built (href : ∀ x ∈ rules, x.2.Refers fun n => ∃ m ∈ names, sameName m n = true) :
    (named name names).Fills (built name names rules) ∧
      ∀ k x, rules[k]? = some x → ∃ i, (built name names rules).root? k = some i ∧
        (built name names rules).Unfolds (named name names).Stands x.2 i := by
  have hrules : ∀ x ∈ rules, (∃ r, (named name names).Stands x.1 r) ∧
      x.2.Refers fun n => ∃ r, (named name names).Stands n r := by
    intro x hx
    obtain ⟨k, hk⟩ := List.mem_iff_getElem?.mp hx
    exact ⟨⟨k, stands_of_record hdis hsame hk⟩, (href x hx).mono fun n hn => (exists_stands_named hdis).mpr hn⟩
  obtain ⟨hfill, hroots, -⟩ := definePatterns_spec rules (named name names) hrules (pairwise_records hdis hsame)
  refine ⟨hfill, fun k x hx => ?_⟩
  obtain ⟨r, i, hr, hroot, hunf⟩ := hroots x (List.mem_of_getElem? hx)
  obtain rfl : r = k := Option.some.inj (hr.symm.trans (stands_of_record hdis hsame hx))
  exact ⟨i, hroot, hunf⟩

variable (name) in
/-- The grammar is complete just if the trees refer to names of the index only. --/
theorem isComplete_built :
    (built name names rules).isComplete = true ↔ ∀ x ∈ rules, x.2.Refers fun n => ∃ m ∈ names, sameName m n = true := by
  constructor
  · intro hc x hx
    have hstands : ∀ x ∈ rules, ∃ r < names.length, (named name names).Stands x.1 r := by
      intro x hx
      obtain ⟨k, hk⟩ := List.mem_iff_getElem?.mp hx
      exact ⟨k, hsame.length_eq ▸ (List.getElem?_eq_some_iff.mp hk).1, stands_of_record hdis hsame hk⟩
    obtain ⟨hgrow, hroot, hrefers⟩ := definePatterns_grow rules (wellFormed_named hdis) hstands
    refine (hrefers x hx).mono ?_
    rintro n ⟨r, hr⟩
    -- A place behind those of the index would have no root.
    have hsize := size_named name names
    have hlt : r < names.length := by
      refine Nat.lt_of_not_le fun hle => ?_
      have hsome := isComplete_iff.mp hc r (lt_size_of_find? hr)
      rw [built, hroot r hle, root?_eq_none_of_le (hsize.symm ▸ hle)] at hsome
      cases hsome
    exact (exists_stands_named hdis).mp ⟨r, hgrow.find?_of_lt hr (hsize ▸ hlt)⟩
  · intro href
    obtain ⟨hfill, hroots⟩ := fills_built name hdis hsame href
    refine isComplete_iff.mpr fun r hr => ?_
    have hsize := congrArg Array.size hfill.names
    rw [Array.size_map, Array.size_map, size_named, ← hsame.length_eq] at hsize
    obtain ⟨i, hi, -⟩ := hroots r _ (List.getElem?_eq_getElem (hsize ▸ hr))
    exact Option.isSome_iff_exists.mpr ⟨i, hi⟩

end

end

/-! ### Files -/

theorem pairwise_of_declareDistinct : ∀ {names : List String} {g g' : Grammar}, declareDistinct g names = .ok g' →
    (names.Pairwise fun a b => sameName a b = false) ∧ ∀ n ∈ names, g.find? n = none
  | [], _, _, _ => ⟨.nil, nofun⟩
  | name :: names, g, g', h => by
    rw [declareDistinct] at h
    cases hname : g.find? name with
    | some r =>
      rw [hname] at h
      cases h
    | none =>
      rw [hname] at h
      obtain ⟨hdis, hnone⟩ := pairwise_of_declareDistinct h
      have hslot : ∀ n ∈ names, ∀ (r : RuleId) (s : Slot), (g.declare name).2.slots[r]? = some s → sameName s.name n = false :=
        fun n hn => find?_eq_none_iff.mp (hnone n hn)
      refine ⟨List.pairwise_cons.mpr ⟨fun n hn => ?_, hdis⟩, List.forall_mem_cons.mpr ⟨hname, fun n hn => ?_⟩⟩
      · exact hslot n hn _ _ ((getElem?_declare g name _ _).mpr (Or.inr ⟨hname, rfl, rfl⟩))
      · exact find?_eq_none_iff.mpr fun r s hs => hslot n hn r s ((getElem?_declare g name r s).mpr (Or.inl hs))

/-- What a file says is read just if its parts say so. --/
theorem read_eq_ok {s : Sections} (hs : s.Fit) {g : Grammar} : s.image.read = .ok g ↔
    ∃ f : File, f.toSections = s ∧ f.Valid ∧ g = built f.name f.names f.rules := by
  have htext : ∀ {id text}, s.image.strings.getText id = .ok text ↔ s.Holds id (Utf8.bytes text) :=
    StringView.getText_eq_ok.trans hs.get_eq_ok
  rw [Image.read]
  constructor
  · intro h
    obtain ⟨name, hname, h⟩ := bind_eq_ok.mp h
    obtain ⟨names, hnames, h⟩ := bind_eq_ok.mp h
    obtain ⟨named, hnamed, h⟩ := bind_eq_ok.mp h
    obtain ⟨⟨rules, c⟩, hrules, h⟩ := bind_eq_ok.mp h
    obtain ⟨hdis, -⟩ := pairwise_of_declareDistinct hnamed
    obtain ⟨bs, ⟨hrest, -⟩, hspell⟩ := (readRecords_eq_ok fun _ _ => hs.get_eq_ok).mp hrules
    cases hnamed.symm.trans (declareDistinct_empty hdis)
    dsimp only at h hrest
    split at h <;> rename_i hempty
    · cases h
    split at h <;> rename_i hcount
    · cases h
    split at h <;> rename_i hcomplete
    swap
    · cases h
    cases h
    have hempty : c.rest = [] := by simpa using hempty
    rw [hempty, List.append_nil] at hrest
    have hrecords : s.records = bs := hs.drop_recordsOffset.symm.trans hrest
    refine ⟨{ toSections := s, name, names, rules }, rfl, ⟨hs, htext.mp hname, ?_, hdis, hrecords ▸ hspell, ?_, ?_⟩, rfl⟩
    · rw [Image.ruleNames, mapM_eq_ok, hs.imageIndex] at hnames
      exact hnames.imp fun _ _ => htext.mp
    · exact (not_not.mp hcount).symm
    · exact (isComplete_built name hdis hspell.sameNames).mp hcomplete
  · rintro ⟨f, rfl, hf, rfl⟩
    have hnames : f.image.ruleNames = .ok f.names := by
      rw [Image.ruleNames, mapM_eq_ok, hs.imageIndex]
      exact hf.indexed.imp fun _ _ => htext.mpr
    have hrules : readRecords f.image.strings f.names ⟨f.header.recordsOffset, f.bytes.drop f.header.recordsOffset⟩ =
        .ok (f.rules, ⟨f.header.recordsOffset + f.records.length, []⟩) := by
      refine (readRecords_eq_ok fun _ _ => hs.get_eq_ok).mpr ⟨f.records, ⟨?_, rfl⟩, hf.spelled⟩
      rw [hs.drop_recordsOffset, List.append_nil]
    have hname : f.image.name = .ok f.name := htext.mpr hf.named
    have hcomplete := (isComplete_built f.name hf.distinct hf.spelled.sameNames).mpr hf.referred
    dsimp only
    rw [hname, ok_bind, hnames, ok_bind, declareDistinct_empty hf.distinct, ok_bind]
    rw [show f.image.header = f.header from rfl, show f.image.bytes = f.bytes from rfl, hrules, ok_bind]
    simp only [List.isEmpty_nil, Bool.not_true, Bool.false_eq_true, if_false, hf.nodeCount, ne_eq, not_true_eq_false]
    exact if_pos hcomplete

section
variable {f : File} (hf : f.Valid)
include hf

theorem describes_built : f.Describes (built f.name f.names f.rules).optimize := by
  obtain ⟨hfill, hroots⟩ := fills_built f.name hf.distinct hf.spelled.sameNames hf.referred
  exact {
    name := hfill.name
    names := by
      have hnames := congrArg Array.toList hfill.names
      rw [Array.toList_map, Array.toList_map] at hnames
      refine hnames.trans ?_
      simp [named, Function.comp_def]
    trees := fun r rule hrule => by
      obtain ⟨i, hi, hunf⟩ := hroots r rule hrule
      have hstands : (built f.name f.names f.rules).optimize.Stands = (named f.name f.names).Stands := hfill.stands_eq
      rw [hstands]
      have hnodes : (built f.name f.names f.rules).optimize.nodes = (built f.name f.names f.rules).nodes := rfl
      exact ⟨i, hi, hunf.grow fun j n h => hnodes ▸ h⟩
    complete := (isComplete_built f.name hf.distinct hf.spelled.sameNames).mpr hf.referred
    optimized := congrArg some (computeFirstSets_congr rfl fun _ => rfl) }

theorem decode_of_valid : decode f.bytes = .ok (built f.name f.names f.rules).optimize := by
  have hok : f.image.read = .ok (built f.name f.names f.rules) := (read_eq_ok hf.toFit).mpr ⟨f, rfl, hf, rfl⟩
  rw [decode, hf.toFit.ofBytes, ok_bind, Image.decode, hok]

end

theorem valid_of_decode {bs : List UInt8} {g : Grammar} (h : decode bs = .ok g) : ∃ f : File, f.Valid ∧ f.bytes = bs := by
  obtain ⟨m, hm, h⟩ := bind_eq_ok.mp h
  obtain ⟨s, hs, hbytes, rfl⟩ := Sections.ofBytes_eq_ok.mp hm
  unfold Image.decode at h
  split at h
  · rename_i hread
    obtain ⟨f, rfl, hf, -⟩ := (read_eq_ok hs).mp hread
    exact ⟨f, hf, hbytes⟩
  · cases h

/-- Bytes are read just if they are a valid file, and then the grammar is what the file says. --/
theorem decode_iff (bs : List UInt8) : ((∃ g, decode bs = .ok g) ↔ ∃ f : File, f.Valid ∧ f.bytes = bs) ∧
    ∀ f : File, f.Valid → f.bytes = bs → ∃ g, decode bs = .ok g ∧ f.Describes g := by
  refine ⟨⟨fun ⟨g, h⟩ => valid_of_decode h, ?_⟩, ?_⟩
  · rintro ⟨f, hf, rfl⟩
    exact ⟨_, decode_of_valid hf⟩
  · rintro f hf rfl
    exact ⟨_, decode_of_valid hf, describes_built hf⟩

/-- What follows the header in the file of `r = "a" / "b" R`, whose record and reference spell the name in the other
    letter case. --/
def recursiveSections : Sections where
  header := {}
  blob := [0x67, 0x72, 0x52, 0x61, 0x62]
  offsets := [0, 1, 2, 3, 4, 5]
  index := [1]
  records := [0, 0, 0, 2, 4, 0, 0, 0, 2, 1, 1, 0, 0, 0, 3, 3, 0, 0, 0, 2, 1, 1, 0, 0, 0, 4, 6, 0, 0, 0, 2]

def recursive : File where
  toSections := { recursiveSections with
    header := { checksum := Crc32.checksum recursiveSections.content, totalSize := 128, stringBytes := 5,
                stringCount := 5, ruleCount := 1, nodeCount := 5, name := 0 } }
  name := "g"
  names := ["r"]
  rules := [("R", .choice [.literal [0x61] true, .sequence [.literal [0x62] true, .ruleRef "R"]])]

theorem sameName_recursive : sameName "r" "R" = true := by
  rw [sameName_iff, foldCase, foldCase, ← String.toList_inj]
  simp

theorem valid_recursive : recursive.Valid where
  magic := rfl
  version := rfl
  reserved := rfl
  totalSize := by
    rw [Sections.bytes, List.length_append, Header.length_bytes rfl rfl]
    rfl
  checksum := by simp only [recursive, Sections.content]
  stringBytes := rfl
  stringCount := rfl
  ruleCount := rfl
  named := ⟨0, 1, rfl, rfl, by decide, by decide, by decide +kernel⟩
  indexed := .cons ⟨1, 2, rfl, rfl, by decide, by decide, by decide +kernel⟩ .nil
  distinct := .cons nofun .nil
  spelled := by
    have ha : recursive.Holds 3 [0x61] := ⟨3, 4, rfl, rfl, by decide, by decide, rfl⟩
    have hb : recursive.Holds 4 [0x62] := ⟨4, 5, rfl, rfl, by decide, by decide, rfl⟩
    have hr : recursive.Holds 2 (Utf8.bytes "R") := ⟨2, 3, rfl, rfl, by decide, by decide, by decide +kernel⟩
    have hbr : EncodesAll recursive.Holds [.literal [0x62] true, .ruleRef "R"] [1, 1, 0, 0, 0, 4, 6, 0, 0, 0, 2] :=
      ⟨[1, 1, 0, 0, 0, 4], [6, 0, 0, 0, 2], rfl, ⟨1, 4, rfl, hb, rfl⟩, [6, 0, 0, 0, 2], [], rfl, ⟨2, rfl, hr⟩, rfl⟩
    have hitems : EncodesAll recursive.Holds [.literal [0x61] true, .sequence [.literal [0x62] true, .ruleRef "R"]]
        [1, 1, 0, 0, 0, 3, 3, 0, 0, 0, 2, 1, 1, 0, 0, 0, 4, 6, 0, 0, 0, 2] :=
      ⟨[1, 1, 0, 0, 0, 3], _, rfl, ⟨1, 3, rfl, ha, rfl⟩, [3, 0, 0, 0, 2, 1, 1, 0, 0, 0, 4, 6, 0, 0, 0, 2], [], rfl,
        ⟨2, _, rfl, rfl, hbr⟩, rfl⟩
    exact ⟨2, _, [], rfl, hr, sameName_comm _ _ ▸ sameName_recursive, ⟨2, _, rfl, rfl, hitems⟩, by decide, rfl⟩
  nodeCount := rfl
  referred := by
    intro rule hrule
    obtain rfl := List.mem_singleton.mp hrule
    exact ⟨trivial, ⟨trivial, ⟨"r", .head _, sameName_recursive⟩, trivial⟩, trivial⟩

theorem decode_iff_recursive : recursive.Valid ∧ ∃ g, decode recursive.bytes = .ok g ∧ recursive.Describes g :=
  ⟨valid_recursive, (decode_iff recursive.bytes).2 recursive valid_recursive rfl⟩

end Binary
end Abnf
