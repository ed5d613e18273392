import Abnf.Proofs.Binary.Acceptance
import Abnf.Proofs.Binary.Checksum
import Abnf.Proofs.Grammar.Naming

/-! Files with a byte that is wrong. The checksum is that of all bytes behind the header, so a changed byte there is always
    noticed (`Crc32.checksum_set_ne`). Of the header most words are guarded by what they have to agree with; the number
    of rules by a record that would have to be told from a name, or the other way round (`length_le_of_same_tail`). What
    is not guarded are the two sizes of the strings, by which all that follows is cut, the name of the grammar, and the
    bytes that are kept for later (`decode_set`). -/

namespace Abnf

/-! ### Names of grammars -/

namespace Grammar

section
variable (name : String)

mutual

theorem addPattern_setName : ∀ (p : Pattern String) (g : Grammar),
    (g.setName name).addPattern p = ((g.addPattern p).1, (g.addPattern p).2.setName name)
  | .literal .., _ | .charRange .., _ => rfl
  | .sequence ps, g | .choice ps, g => by
    rw [addPattern, addPatterns_setName ps g]
    rfl
  | .repetition p _ _, g | .fold p, g => by
    rw [addPattern, addPattern_setName p g]
    rfl
  | .ruleRef other, g => by
    rw [addPattern, addRef, declare_setName]
    rfl

theorem addPatterns_setName : ∀ (ps : List (Pattern String)) (g : Grammar),
    (g.setName name).addPatterns ps = ((g.addPatterns ps).1, (g.addPatterns ps).2.setName name)
  | [], _ => rfl
  | p :: ps, g => by
    rw [addPatterns, addPattern_setName p g]
    dsimp only
    rw [addPatterns_setName ps]
    rfl

end

theorem definePattern_setName (other : String) (p : Pattern String) (g : Grammar) :
    (g.setName name).definePattern other p = (g.definePattern other p).setName name := by
  rw [definePattern, addPattern_setName]
  dsimp only
  rw [define, declare_setName]
  rfl

end

/-! ### Numbers of nodes -/

mutual

theorem size_nodes_addPattern : ∀ (p : Pattern String) (g : Grammar),
    (g.addPattern p).2.nodes.size = g.nodes.size + p.size
  | .literal .., _ | .charRange .., _ => Array.size_push _
  | .sequence ps, g | .choice ps, g => (Array.size_push _).trans (congrArg (· + 1) (size_nodes_addPatterns ps g))
  | .repetition p _ _, g | .fold p, g => (Array.size_push _).trans (congrArg (· + 1) (size_nodes_addPattern p g))
  | .ruleRef name, g => (Array.size_push _).trans (congrArg (·.size + 1) (nodes_declare g name))

theorem size_nodes_addPatterns : ∀ (ps : List (Pattern String)) (g : Grammar),
    (g.addPatterns ps).2.nodes.size = g.nodes.size + Pattern.sizes ps
  | [], _ => rfl
  | p :: ps, g => by
    rw [addPatterns, size_nodes_addPatterns ps, size_nodes_addPattern p g, Pattern.sizes, Nat.add_assoc]

end

theorem size_nodes_definePattern (name : String) (p : Pattern String) (g : Grammar) :
    (g.definePattern name p).nodes.size = g.nodes.size + p.size := by
  show ((g.addPattern p).2.declare name).2.nodes.size = _
  rw [nodes_declare, size_nodes_addPattern]

end Grammar

namespace Binary

theorem built_setName (name name' : String) (names : List String) (rules : List (String × Pattern String)) :
    built name' names rules = (built name names rules).setName name' := by
  have hfold : ∀ (rules : List (String × Pattern String)) (g : Grammar),
      rules.foldl (fun g x => g.definePattern x.1 x.2) (g.setName name') =
        (rules.foldl (fun g x => g.definePattern x.1 x.2) g).setName name' := by
    intro rules
    induction rules with
    | nil => exact fun _ => rfl
    | cons x rules ih =>
      intro g
      rw [List.foldl_cons, List.foldl_cons, Grammar.definePattern_setName]
      exact ih _
  exact hfold rules (named name names)

theorem size_nodes_built (name : String) (names : List String) (rules : List (String × Pattern String)) :
    (built name names rules).nodes.size = Pattern.sizes (rules.map Prod.snd) := by
  have hfold : ∀ (rules : List (String × Pattern String)) (g : Grammar),
      (rules.foldl (fun g x => g.definePattern x.1 x.2) g).nodes.size =
        g.nodes.size + Pattern.sizes (rules.map Prod.snd) := by
    intro rules
    induction rules with
    | nil => exact fun _ => rfl
    | cons x rules ih =>
      intro g
      rw [List.foldl_cons, ih, Grammar.size_nodes_definePattern, List.map_cons, Pattern.sizes, Nat.add_assoc]
  exact (hfold rules (named name names)).trans (Nat.zero_add _)

/-! ### Words in a file -/

section
variable {bs : List UInt8} {i k : Nat} {b : UInt8}

theorem wordAt_set (h : i < k ∨ k + 4 ≤ i) : Header.wordAt (bs.set i b) k = Header.wordAt bs k := by
  have hslice : ∀ bs : List UInt8, Header.wordAt bs k = ((Word.read? ((bs.drop k).take 4)).map Prod.fst).getD 0 := by
    intro bs
    rw [Header.wordAt]
    rcases bs.drop k with _ | ⟨a, _ | ⟨b, _ | ⟨c, _ | ⟨d, rest⟩⟩⟩⟩
    all_goals rfl
  rw [hslice, hslice, List.drop_set]
  split
  · rfl
  · rw [List.take_set, List.set_eq_of_length_le]
    rw [List.length_take]
    omega

theorem wordAt_set_ne (hi : i < bs.length) (hb : bs[i] ≠ b) (hk : k + 4 ≤ bs.length) (hle : k ≤ i) (hlt : i < k + 4) :
    Header.wordAt (bs.set i b) k ≠ Header.wordAt bs k := by
  intro h
  have h := congrArg Word.bytes h
  rw [Header.bytes_wordAt (by rwa [List.length_set]), Header.bytes_wordAt hk] at h
  have h := congrArg (·[i - k]?) h
  simp only [List.getElem?_take_of_lt (show i - k < 4 by omega), List.getElem?_drop, Nat.add_sub_cancel' hle,
    List.getElem?_set_self hi, List.getElem?_eq_getElem hi] at h
  exact hb (Option.some.inj h).symm

end

/-! ### Sections that are cut in one way -/

section
variable {s s' : Sections}

theorem Sections.Holds.unique {id : UInt32} {bs cs : List UInt8} (h : s.Holds id bs) (h' : s.Holds id cs) : bs = cs := by
  obtain ⟨start, stop, hstart, hstop, -, -, rfl⟩ := h
  obtain ⟨start', stop', hstart', hstop', -, -, rfl⟩ := h'
  obtain rfl : start = start' := Option.some.inj (hstart.symm.trans hstart')
  obtain rfl : stop = stop' := Option.some.inj (hstop.symm.trans hstop')
  rfl

theorem Sections.Holds.text_unique {id : UInt32} {a b : String} (h : s.Holds id (Utf8.bytes a))
    (h' : s.Holds id (Utf8.bytes b)) : a = b := by
  have htext := Utf8.text?_bytes a
  rw [h.unique h', Utf8.text?_bytes] at htext
  exact (Option.some.inj htext).symm

/-- The sizes of the strings say where the strings are, and what is left. --/
theorem Sections.Fit.strings_eq (hs : s.Fit) (hs' : s'.Fit) (hcontent : s'.content = s.content)
    (hbytes : s'.header.stringBytes = s.header.stringBytes) (hcount : s'.header.stringCount = s.header.stringCount) :
    s'.Holds = s.Holds ∧
      s'.index.flatMap Word.bytes ++ s'.records = s.index.flatMap Word.bytes ++ s.records := by
  have hlen : s'.blob.length = s.blob.length := by rw [← hs.stringBytes, ← hs'.stringBytes, hbytes]
  have hlen' : s'.offsets.length = s.offsets.length := by rw [← hs.stringCount, ← hs'.stringCount, hcount]
  obtain ⟨hblob, hrest⟩ := List.append_inj hcontent hlen
  obtain ⟨hoffsets, htail⟩ := List.append_inj hrest (by simp only [Word.length_flatMap_bytes, hlen'])
  have hoffsets := Word.flatMap_bytes_injective hoffsets
  refine ⟨?_, htail⟩
  funext id bs
  rw [Sections.Holds, Sections.Holds, hblob, hoffsets]

theorem Records.Spell.unique (hs : s.Fit) {names : List String} {rules rules' : List (String × Pattern String)}
    {bytes : List UInt8} (h : Records.Spell s.Holds names rules bytes) (h' : Records.Spell s.Holds names rules' bytes) :
    rules = rules' := by
  have hpass : (Cursor.mk 0 bytes).Passes bytes ⟨0 + bytes.length, []⟩ := ⟨(List.append_nil bytes).symm, rfl⟩
  have hread := (readRecords_eq_ok fun _ _ => hs.get_eq_ok).mpr ⟨bytes, hpass, h⟩
  have hread' := (readRecords_eq_ok fun _ _ => hs.get_eq_ok).mpr ⟨bytes, hpass, h'⟩
  exact (Prod.ext_iff.mp (Except.ok.inj (hread.symm.trans hread'))).1

end

/-! ### The number of rules -/

/-- An index cannot reach into the records of another file with the same bytes: the first of them begins with a name that
    the index has at its front already, and no name may come twice. --/
theorem length_le_of_same_tail {S : UInt32 → List UInt8 → Prop}
    (hS : ∀ {id a b}, S id (Utf8.bytes a) → S id (Utf8.bytes b) → a = b) {index index' : List UInt32}
    {names names' : List String} {rules : List (String × Pattern String)} {records records' : List UInt8}
    (hindexed : List.Forall₂ (fun id name => S id (Utf8.bytes name)) index names)
    (hindexed' : List.Forall₂ (fun id name => S id (Utf8.bytes name)) index' names')
    (hdistinct : names'.Pairwise fun a b => sameName a b = false) (hspell : Records.Spell S names rules records)
    (htail : index'.flatMap Word.bytes ++ records' = index.flatMap Word.bytes ++ records) :
    index'.length ≤ index.length := by
  by_contra hlt
  obtain ⟨front, rest, rfl, hfront⟩ := exists_append index' (Nat.le_of_not_le hlt)
  rw [List.flatMap_append, List.append_assoc] at htail
  obtain ⟨hfront', hrest⟩ := List.append_inj htail (by rw [Word.length_flatMap_bytes, Word.length_flatMap_bytes, hfront])
  obtain rfl := Word.flatMap_bytes_injective hfront'
  cases rest with
  | nil => exact hlt (by simp)
  | cons id rest =>
    match names, rules, hspell with
    | [], [], hnil =>
      rw [hnil] at hrest
      cases hrest
    | n :: names, (m, p) :: rules, ⟨id', item, items, hrecords, hm, hsame, _⟩ =>
      -- The word behind the index is the name of the first record, and stands for a name that is not the first.
      obtain ⟨first, front, hn, -, rfl⟩ := List.forall₂_cons_right_iff.mp hindexed
      rw [List.cons_append] at hindexed'
      obtain ⟨n', names', hn', hnames', rfl⟩ := List.forall₂_cons_left_iff.mp hindexed'
      have hdrop := List.forall₂_drop front.length hnames'
      rw [List.drop_left] at hdrop
      obtain ⟨k, ks, hk, -, hks⟩ := List.forall₂_cons_left_iff.mp hdrop
      have hmem : k ∈ names' := List.mem_of_mem_drop (hks ▸ List.mem_cons_self)
      rw [hrecords, List.flatMap_cons, List.append_assoc] at hrest
      obtain rfl : id = id' := Word.bytes_injective (List.append_inj hrest rfl).1
      obtain rfl : n' = n := hS hn' hn
      obtain rfl : k = m := hS hk hm
      have hne := (List.pairwise_cons.mp hdistinct).1 k hmem
      rw [sameName_comm, hsame] at hne
      cases hne

/-! ### Files -/

section
variable {f f' : File}

/-- Files with the same bytes behind the header, and the same sizes of their strings, say the same of rules. --/
theorem File.Valid.eq_of_same_strings (hf : f.Valid) (hf' : f'.Valid) (hcontent : f'.content = f.content)
    (hbytes : f'.header.stringBytes = f.header.stringBytes) (hcount : f'.header.stringCount = f.header.stringCount) :
    f'.Holds = f.Holds ∧ f'.header.ruleCount = f.header.ruleCount ∧ f'.header.nodeCount = f.header.nodeCount ∧
      f'.names = f.names ∧ f'.rules = f.rules := by
  obtain ⟨hholds, htail⟩ := hf.toFit.strings_eq hf'.toFit hcontent hbytes hcount
  have hindexed := hf'.indexed
  have hspelled := hf'.spelled
  rw [hholds] at hindexed hspelled
  have htext : ∀ {id a b}, f.Holds id (Utf8.bytes a) → f.Holds id (Utf8.bytes b) → a = b := fun h h' => h.text_unique h'
  have hlength : f'.index.length = f.index.length := Nat.le_antisymm
    (length_le_of_same_tail htext hf.indexed hindexed hf'.distinct hf.spelled htail)
    (length_le_of_same_tail htext hindexed hf.indexed hf.distinct hspelled htail.symm)
  obtain ⟨hindex, hrecords⟩ := List.append_inj htail (by rw [Word.length_flatMap_bytes, Word.length_flatMap_bytes, hlength])
  have hnames : f'.names = f.names := by
    rw [Word.flatMap_bytes_injective hindex] at hindexed
    have hunique : Relator.RightUnique fun id name => f.Holds id (Utf8.bytes name) := fun _ _ _ h h' => htext h h'
    exact List.right_unique_forall₂' hunique hindexed hf.indexed
  have hrules : f'.rules = f.rules := by
    rw [hnames, hrecords] at hspelled
    exact hspelled.unique hf.toFit hf.spelled
  refine ⟨hholds, UInt32.toNat_inj.mp ?_, UInt32.toNat_inj.mp ?_, hnames, hrules⟩
  · rw [hf.ruleCount, hf'.ruleCount, hlength]
  · rw [hf.nodeCount, hf'.nodeCount, hrules]

theorem Sections.Fit.words {s : Sections} (hs : s.Fit) : Header.wordAt s.bytes 0 = 0x524B4F47 ∧
    Header.wordAt s.bytes 4 = s.header.version ∧ Header.wordAt s.bytes 8 = s.header.checksum ∧
    Header.wordAt s.bytes 12 = s.header.totalSize ∧ Header.wordAt s.bytes 16 = s.header.stringBytes ∧
    Header.wordAt s.bytes 20 = s.header.stringCount ∧ Header.wordAt s.bytes 24 = s.header.ruleCount ∧
    Header.wordAt s.bytes 28 = s.header.nodeCount ∧ Header.wordAt s.bytes 32 = s.header.name := by
  have h := Header.ofBytes?_append hs.magic hs.reserved s.content
  rw [← Sections.bytes] at h
  unfold Header.ofBytes? at h
  split at h
  · cases h
  · refine ⟨?_, ?_⟩
    · rw [Sections.bytes, Header.bytes, hs.magic]
      rfl
    · rw [← Option.some.inj h]
      simp

theorem Sections.Fit.content_eq {s : Sections} (hs : s.Fit) : s.content = s.bytes.drop headerSize := by
  rw [Sections.bytes, ← hs.length_header, List.drop_left]

/-- There are as many rules and nodes as the header says. --/
theorem File.Valid.size_built (hf : f.Valid) :
    (built f.name f.names f.rules).optimize.slots.size = f.header.ruleCount.toNat ∧
      (built f.name f.names f.rules).optimize.nodes.size = f.header.nodeCount.toNat := by
  have hnames := congrArg List.length (describes_built hf).names
  rw [List.length_map, Array.length_toList] at hnames
  rw [hnames, ← hf.indexed.length_eq, hf.ruleCount, hf.nodeCount]
  exact ⟨rfl, size_nodes_built f.name f.names f.rules⟩

/-- Files of one length, with the same bytes behind the header and the same sizes of their strings, have the same words up
    to that of the name. --/
theorem File.Valid.wordAt_eq (hf : f.Valid) (hf' : f'.Valid) (hcontent : f'.content = f.content)
    (hlength : f'.bytes.length = f.bytes.length) (hbytes : f'.header.stringBytes = f.header.stringBytes)
    (hcount : f'.header.stringCount = f.header.stringCount) {k : Nat} (hk : k < 32) (hfour : k % 4 = 0) :
    Header.wordAt f'.bytes k = Header.wordAt f.bytes k := by
  obtain ⟨-, hruleCount, hnodeCount, -, -⟩ := hf.eq_of_same_strings hf' hcontent hbytes hcount
  have hversion : f'.header.version = f.header.version := hf'.version.trans hf.version.symm
  have hchecksum : f'.header.checksum = f.header.checksum := by rw [hf'.checksum, hf.checksum, hcontent]
  have htotalSize : f'.header.totalSize = f.header.totalSize := by
    rw [← UInt32.toNat_inj, hf'.totalSize, hf.totalSize, hlength]
  obtain ⟨h₀, h₄, h₈, h₁₂, h₁₆, h₂₀, h₂₄, h₂₈, -⟩ := hf.toFit.words
  obtain ⟨h₀', h₄', h₈', h₁₂', h₁₆', h₂₀', h₂₄', h₂₈', -⟩ := hf'.toFit.words
  obtain rfl | rfl | rfl | rfl | rfl | rfl | rfl | rfl :
    k = 0 ∨ k = 4 ∨ k = 8 ∨ k = 12 ∨ k = 16 ∨ k = 20 ∨ k = 24 ∨ k = 28 := by omega
  · rw [h₀, h₀']
  · rw [h₄, h₄', hversion]
  · rw [h₈, h₈', hchecksum]
  · rw [h₁₂, h₁₂', htotalSize]
  · rw [h₁₆, h₁₆', hbytes]
  · rw [h₂₀, h₂₀', hcount]
  · rw [h₂₄, h₂₄', hruleCount]
  · rw [h₂₈, h₂₈', hnodeCount]

section
variable {i : Nat} {b : UInt8} (hf : f.Valid) (hf' : f'.Valid) (hi : i < f.bytes.length) (hb : f.bytes[i] ≠ b)
  (hset : f'.bytes = f.bytes.set i b)
include hf hf' hi hb hset

/-- The checksum is that of all bytes behind the header. --/
theorem File.Valid.lt_headerSize : i < headerSize := by
  by_contra hge
  have hge := Nat.le_of_not_lt hge
  have hcontent : f'.content = f.content.set (i - headerSize) b := by
    rw [hf.toFit.content_eq, hf'.toFit.content_eq, hset, List.drop_set, if_neg (Nat.not_lt_of_le hge)]
  have hchecksum : f'.header.checksum = f.header.checksum := by
    obtain ⟨-, -, h₈, -⟩ := hf.toFit.words
    obtain ⟨-, -, h₈', -⟩ := hf'.toFit.words
    rw [← h₈, ← h₈', hset]
    exact wordAt_set (Or.inr (Nat.le_trans (by decide) hge))
  have hbyte : f.content[i - headerSize]? = some f.bytes[i] := by
    rw [hf.toFit.content_eq, List.getElem?_drop, Nat.add_sub_cancel' hge, List.getElem?_eq_getElem hi]
  obtain ⟨hi', hbyte⟩ := List.getElem?_eq_some_iff.mp hbyte
  rw [hf.checksum, hf'.checksum, hcontent] at hchecksum
  exact Crc32.checksum_set_ne hi' (hbyte ▸ hb) hchecksum

/-- If the sizes of the strings are the same, nothing can have changed but the name. --/
theorem File.Valid.changed_name (hsizes : ¬(16 ≤ i ∧ i < 24)) : 32 ≤ i ∧ f'.names = f.names ∧ f'.rules = f.rules ∧
    (36 ≤ i → f'.name = f.name) := by
  have hlt : i < headerSize := hf.lt_headerSize hf' hi hb hset
  have hword : ∀ k, i < k ∨ k + 4 ≤ i → Header.wordAt f'.bytes k = Header.wordAt f.bytes k := fun k hk => by
    rw [hset, wordAt_set hk]
  have hcontent : f'.content = f.content := by
    rw [hf.toFit.content_eq, hf'.toFit.content_eq, hset, List.drop_set, if_pos hlt]
  have hlength : f'.bytes.length = f.bytes.length := by rw [hset, List.length_set]
  obtain ⟨-, -, -, -, h₁₆, h₂₀, -, -, h₃₂⟩ := hf.toFit.words
  obtain ⟨-, -, -, -, h₁₆', h₂₀', -, -, h₃₂'⟩ := hf'.toFit.words
  have hbytes : f'.header.stringBytes = f.header.stringBytes := by
    rw [← h₁₆, ← h₁₆', hword 16 (by omega)]
  have hcount : f'.header.stringCount = f.header.stringCount := by
    rw [← h₂₀, ← h₂₀', hword 20 (by omega)]
  obtain ⟨hholds, -, -, hnames, hrules⟩ := hf.eq_of_same_strings hf' hcontent hbytes hcount
  refine ⟨Nat.le_of_not_lt fun hlt => ?_, hnames, hrules, fun hge => ?_⟩
  · have hsame := hf.wordAt_eq hf' hcontent hlength hbytes hcount (k := i / 4 * 4) (by omega) (by omega)
    have hlong : headerSize ≤ f.bytes.length := by
      rw [Sections.bytes, List.length_append, hf.toFit.length_header]
      exact Nat.le_add_right _ _
    rw [headerSize] at hlong
    rw [hset] at hsame
    exact wordAt_set_ne hi hb (by omega) (by omega) (by omega) hsame
  · have hname : f'.header.name = f.header.name := by rw [← h₃₂, ← h₃₂', hword 32 (Or.inr hge)]
    have hnamed := hf'.named
    rw [hholds, hname] at hnamed
    exact hnamed.text_unique hf.named

end

/-- Bytes that are wrong. If a file is read, and is still read after one of its bytes was changed, then the byte belongs to
    the sizes of the strings in the header, and there are as many rules and nodes as before; or to the name of the
    grammar, and nothing but the name has changed; or to the bytes that are kept for later, and nothing has changed.
    All other changes are noticed. --/
theorem decode_set {bytes : List UInt8} {g g' : Grammar} (h : decode bytes = .ok g) {i : Nat} {b : UInt8}
    (hi : i < bytes.length) (hb : bytes[i] ≠ b) (h' : decode (bytes.set i b) = .ok g') :
    (16 ≤ i ∧ i < 24 ∧ g'.slots.size = g.slots.size ∧ g'.nodes.size = g.nodes.size) ∨
      (32 ≤ i ∧ i < 36 ∧ ∃ name, g' = g.setName name) ∨ (36 ≤ i ∧ i < 64 ∧ g' = g) := by
  obtain ⟨f, hf, rfl⟩ := valid_of_decode h
  obtain ⟨f', hf', hset⟩ := valid_of_decode h'
  rw [← hset, decode_of_valid hf'] at h'
  rw [decode_of_valid hf] at h
  obtain rfl := Except.ok.inj h
  obtain rfl := Except.ok.inj h'
  have hlt : i < headerSize := hf.lt_headerSize hf' hi hb hset
  by_cases hsizes : 16 ≤ i ∧ i < 24
  · obtain ⟨-, -, -, -, -, -, h₂₄, h₂₈, -⟩ := hf.toFit.words
    obtain ⟨-, -, -, -, -, -, h₂₄', h₂₈', -⟩ := hf'.toFit.words
    have hruleCount : f'.header.ruleCount = f.header.ruleCount := by
      rw [← h₂₄, ← h₂₄', hset, wordAt_set (Or.inl (by omega))]
    have hnodeCount : f'.header.nodeCount = f.header.nodeCount := by
      rw [← h₂₈, ← h₂₈', hset, wordAt_set (Or.inl (by omega))]
    refine Or.inl ⟨hsizes.1, hsizes.2, ?_, ?_⟩
    · rw [hf.size_built.1, hf'.size_built.1, hruleCount]
    · rw [hf.size_built.2, hf'.size_built.2, hnodeCount]
  · obtain ⟨hge, hnames, hrules, hname⟩ := hf.changed_name hf' hi hb hset hsizes
    have hbuilt : (built f'.name f'.names f'.rules).optimize = (built f.name f.names f.rules).optimize.setName f'.name := by
      rw [hnames, hrules, built_setName f.name, Grammar.optimize_setName]
    rcases Nat.lt_or_ge i 36 with hlt' | hge'
    · exact Or.inr (Or.inl ⟨hge, hlt', f'.name, hbuilt⟩)
    · refine Or.inr (Or.inr ⟨hge', hlt, ?_⟩)
      rw [hnames, hrules, hname hge']

end

/-! ### Changes that are not noticed -/

/-- A file with another header passes, if the header has nothing but other numbers and the file is long enough for them. --/
theorem decode_append {h : Header} {content : List UInt8} (hmagic : h.magic = magicBytes)
    (hversion : h.version = formatVersion) (hreserved : h.reserved.length = 28)
    (htotalSize : h.totalSize.toNat = headerSize + content.length) (hchecksum : h.checksum = Crc32.checksum content)
    (hle : h.recordsOffset ≤ headerSize + content.length) :
    decode (h.bytes ++ content) = Image.decode ⟨h, h.bytes ++ content⟩ := by
  obtain ⟨s, rfl, rfl, hbytes, hcount, hrules⟩ := Sections.exists_sections h content hle
  have hlength : s.bytes.length = headerSize + s.content.length := by
    rw [Sections.bytes, List.length_append, Header.length_bytes hmagic hreserved]
  have hs : s.Fit := ⟨hmagic, hversion, hreserved, htotalSize.trans hlength.symm, hchecksum, hbytes, hcount, hrules⟩
  rw [decode, ← Sections.bytes, hs.ofBytes, ok_bind]
  rfl

/-- A grammar whose file can be cut up in other ways. If the index is taken to begin later, at bytes that were written for
    the ranges, the rest of the records spells other trees, of as many nodes. --/
def ambiguous : Grammar :=
  ⟨"g", #[.charRange 0 0x2000000, .fold 0, .fold 1, .fold 2, .fold 3, .fold 4, .charRange 0x3000000 0x6070702,
    .literal [0x61] false, .charRange 0x30000 0x702, .literal [0x62] false, .charRange 0x30000 0x702,
    .literal [0x63] false, .charRange 0x70707 0x7020000, .literal [0x64] false,
    .sequence [5, 6, 7, 8, 9, 10, 11, 12, 13]], #[⟨"r", some 14⟩], none⟩

/-- The header of its file, if it says something else of the strings and the name. --/
def misleading (stringBytes stringCount name : UInt32) : Header :=
  { header ambiguous with stringBytes, stringCount, name }

theorem misleading_self : misleading 6 6 0 = header ambiguous := by
  have hbytes : (header ambiguous).stringBytes = 6 := by decide +kernel
  have hcount : (header ambiguous).stringCount = 6 := by decide +kernel
  have hname : (header ambiguous).name = 0 := by decide +kernel
  calc misleading 6 6 0
      = misleading (header ambiguous).stringBytes (header ambiguous).stringCount (header ambiguous).name := by
        rw [hbytes, hcount, hname]
    _ = header ambiguous := rfl

/-- The name of what is read, and the names of its rules. --/
def namesRead (bytes : List UInt8) : Option (String × List String) :=
  (decode bytes).toOption.map fun g => (g.name, g.slots.toList.map Slot.name)

theorem namesRead_misleading {stringBytes stringCount name : UInt32}
    (hle : (misleading stringBytes stringCount name).recordsOffset ≤ headerSize + (content ambiguous).length) :
    namesRead ((misleading stringBytes stringCount name).bytes ++ content ambiguous) =
      (Image.decode ⟨misleading stringBytes stringCount name,
        (misleading stringBytes stringCount name).bytes ++ content ambiguous⟩).toOption.map
          fun g => (g.name, g.slots.toList.map Slot.name) := by
  have hsize : (header ambiguous).totalSize.toNat = headerSize + (content ambiguous).length := by decide +kernel
  have hread := decode_append (h := misleading stringBytes stringCount name) rfl rfl rfl hsize rfl hle
  rw [namesRead, hread]

theorem bytes_ambiguous : (image ambiguous).bytes = (misleading 6 6 0).bytes ++ content ambiguous := by
  rw [misleading_self]
  rfl

theorem namesRead_ambiguous : namesRead (image ambiguous).bytes = some ("g", ["r"]) := by
  rw [bytes_ambiguous, namesRead_misleading (by decide +kernel)]
  decide +kernel

theorem namesRead_ambiguous_set : namesRead ((image ambiguous).bytes.set 35 1) = some ("r", ["r"]) := by
  have hname : (misleading 6 6 0).bytes.set 35 1 = (misleading 6 6 1).bytes := rfl
  rw [bytes_ambiguous, List.set_append_left 35 1 (by decide), hname, namesRead_misleading (by decide +kernel)]
  decide +kernel

theorem exists_of_namesRead {bytes : List UInt8} {names : String × List String} (h : namesRead bytes = some names) :
    ∃ g, decode bytes = .ok g := by
  rw [namesRead, Option.map_eq_some_iff] at h
  obtain ⟨g, hg, -⟩ := h
  exact ⟨g, toOption_eq_some.mp hg⟩

/-- A file that another byte turns into that of another grammar, in each of the three words that nothing guards. --/
theorem exists_misread : ∃ bytes, encode ambiguous = .ok bytes ∧ namesRead bytes = some ("g", ["r"]) ∧
    (bytes[35]? = some 0 ∧ namesRead (bytes.set 35 1) = some ("r", ["r"])) ∧
    (bytes[23]? = some 6 ∧ namesRead (bytes.set 23 11) = some ("g", ["a"])) ∧
    (bytes[19]? = some 6 ∧ namesRead (bytes.set 19 26) = some ("d", [""])) := by
  refine ⟨_, (encode_eq_ok ambiguous).mpr ⟨by decide +kernel, rfl⟩, namesRead_ambiguous, ⟨?_, namesRead_ambiguous_set⟩, ?_⟩
  · rw [bytes_ambiguous]
    rfl
  · have hcount : (misleading 6 6 0).bytes.set 23 11 = (misleading 6 11 0).bytes := rfl
    have hbytes : (misleading 6 6 0).bytes.set 19 26 = (misleading 26 6 0).bytes := rfl
    rw [bytes_ambiguous, List.set_append_left 23 11 (by decide), List.set_append_left 19 26 (by decide), hcount, hbytes]
    refine ⟨⟨rfl, ?_⟩, ⟨rfl, ?_⟩⟩
    all_goals
      rw [namesRead_misleading (by decide +kernel)]
      decide +kernel

/-- The same file, with the name that is that of its rule. --/
theorem decode_set_ambiguous : ∃ bytes g g', encode ambiguous = .ok bytes ∧ decode bytes = .ok g ∧
    (∃ h : 35 < bytes.length, bytes[35] ≠ 1) ∧ decode (bytes.set 35 1) = .ok g' ∧ ∃ name, g' = g.setName name := by
  obtain ⟨g, hg⟩ := exists_of_namesRead namesRead_ambiguous
  obtain ⟨g', hg'⟩ := exists_of_namesRead namesRead_ambiguous_set
  have hbyte : (image ambiguous).bytes[35]? = some 0 := by
    rw [bytes_ambiguous]
    rfl
  obtain ⟨hi, hbyte⟩ := List.getElem?_eq_some_iff.mp hbyte
  have hb : (image ambiguous).bytes[35] ≠ 1 := by
    rw [hbyte]
    decide
  refine ⟨_, g, g', (encode_eq_ok ambiguous).mpr ⟨by decide +kernel, rfl⟩, hg, ⟨hi, hb⟩, hg', ?_⟩
  obtain ⟨-, hlt, -⟩ | ⟨-, -, hname⟩ | ⟨hle, -⟩ := decode_set hg hi hb hg'
  · omega
  · exact hname
  · omega

end Binary
end Abnf
