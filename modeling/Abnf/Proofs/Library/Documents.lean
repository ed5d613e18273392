import Abnf.Proofs.Compile.Naming
import Abnf.Proofs.Document.Shape
import Abnf.Proofs.Document.Spelling
import Abnf.Proofs.Document.Tokens
import Abnf.Proofs.Library.Loading

/-! Documents in files. A loader tells a saved grammar from a document by the first four bytes, and a document may begin with
    them too: with a rule whose name does. Such a document is taken for a saved grammar. It is refused then, because in a
    saved grammar a zero byte comes next, and no document that can be read has one behind a name (`not_zero_of_compile`).
    All other documents that can be compiled over the core rules are loaded as they are compiled, by the name of their
    file (`loadFile_document`). -/

namespace Abnf

/-! ### Characters of one byte -/

/-- Text begins with characters of one byte just if its bytes begin with theirs. --/
theorem ascii_prefix_iff : ∀ {as cs : List Char}, (∀ c ∈ as, c.val.toNat < 0x80) →
    (as.map (·.val.toUInt8) <+: cs.flatMap String.utf8EncodeChar ↔ as <+: cs)
  | [], _, _ => iff_of_true List.nil_prefix List.nil_prefix
  | _ :: _, [], _ => iff_of_false (fun h => nomatch List.prefix_nil.mp h) fun h => nomatch List.prefix_nil.mp h
  | a :: as, c :: cs, h => by
    obtain ⟨ha, has⟩ := List.forall_mem_cons.mp h
    rw [List.map_cons, List.flatMap_cons, List.cons_prefix_cons]
    rcases Nat.lt_or_ge c.val.toNat 0x80 with hc | hc
    · rw [utf8EncodeChar_ascii hc, List.singleton_append, List.cons_prefix_cons, ascii_prefix_iff has]
      refine and_congr_left' ⟨fun hac => ?_, fun hac => by rw [hac]⟩
      have hval := congrArg UInt8.toNat hac
      rw [UInt32.toNat_toUInt8, UInt32.toNat_toUInt8, Nat.mod_eq_of_lt (by omega), Nat.mod_eq_of_lt (by omega)] at hval
      exact Char.ext (UInt32.toNat_inj.mp hval)
    · -- The lead byte of a longer character is no character by itself.
      obtain ⟨b, bs, hb, -, hlong⟩ := exists_head_utf8EncodeChar c
      rw [hb, List.cons_append, List.cons_prefix_cons]
      refine iff_of_false (fun hab => ?_) fun hac => ?_
      · have hval := congrArg UInt8.toNat hab.1
        rw [UInt32.toNat_toUInt8, Nat.mod_eq_of_lt (by omega)] at hval
        have := (hlong hc).1
        omega
      · rw [hac.1] at ha
        omega

/-! ### What looks like a saved grammar -/

namespace Binary

/-- The characters that a saved grammar begins with. --/
def magicText : List Char := ['R', 'K', 'O', 'G']

theorem ascii_magicText : ∀ c ∈ magicText, c.val.toNat < 0x80 := by
  simp [magicText]

theorem hasMagic_bytes_iff {source : String} : hasMagic (Utf8.bytes source) = true ↔ magicText <+: source.toList := by
  rw [hasMagic, List.isPrefixOf_iff_prefix, Utf8.bytes_eq, ← ascii_prefix_iff ascii_magicText]
  rfl

/-- A file that begins like a saved grammar and goes on otherwise is not one. --/
theorem decode_of_magic {bs : List UInt8} (hmagic : hasMagic bs = true) (hzero : ¬magicBytes ++ [0] <+: bs) :
    decode bs = .error (.format (.fileTooSmall bs.length)) ∨ ∃ v, decode bs = .error (.version v) := by
  by_cases hlen : bs.length < headerSize
  · left
    have hheader : Header.ofBytes? bs = none := if_pos hlen
    rw [decode, Image.ofBytes, hheader]
    rfl
  · right
    refine ⟨Header.wordAt bs 4, ?_⟩
    obtain ⟨rest, rfl⟩ := List.isPrefixOf_iff_prefix.mp hmagic
    have hversion : Header.wordAt (magicBytes ++ rest) 4 ≠ formatVersion := by
      intro h
      -- The greatest byte of the version comes first, and it is zero.
      have hlong : 4 + 4 ≤ (magicBytes ++ rest).length := by
        rw [headerSize] at hlen
        omega
      have hbytes := Header.bytes_wordAt hlong
      rw [h, show (magicBytes ++ rest).drop 4 = rest from rfl] at hbytes
      refine hzero ((List.prefix_append_right_inj magicBytes).mpr ?_)
      have hfirst : [0] <+: Word.bytes formatVersion := by decide
      exact hfirst.trans (hbytes ▸ List.take_prefix 4 rest)
    have hheader : Header.ofBytes? (magicBytes ++ rest) = some _ := if_neg hlen
    rw [decode, Image.ofBytes, hheader]
    dsimp only
    rw [Header.hasMagic, Header.hasVersion, beq_eq_false_iff_ne.mpr hversion]
    rfl

end Binary

/-! ### What a document begins with -/

namespace Lexer

theorem mergeGarbage_garbage {t : Token} (ht : t.kind = .garbage) (ts : List Token) :
    ∃ u us, mergeGarbage (t :: ts) = u :: us ∧ u.kind = .garbage := by
  rw [mergeGarbage_cons]
  split
  · exact ⟨t, [], rfl, ht⟩
  · split
    · exact ⟨_, _, rfl, rfl⟩
    · exact ⟨t, _, rfl, ht⟩

/-- A name with a zero byte behind it is a token in front of garbage. --/
theorem mergeGarbage_zero {name : String} (hname : isName name = true) (rest : List Char) :
    ∃ u us, mergeGarbage (pieces (name.toList ++ '\x00' :: rest)) = ⟨.ruleName, name⟩ :: u :: us ∧ u.kind = .garbage := by
  have hstands : (Token.mk .ruleName name).Stands ('\x00' :: rest) := by
    refine Token.stands_ruleName hname ?_
    rintro _ ⟨⟩
    rfl
  have hzero : pieces ('\x00' :: rest) = ⟨.garbage, "\x00"⟩ :: pieces rest := by
    rw [pieces]
    rfl
  obtain ⟨u, us, hmerge, hu⟩ := mergeGarbage_garbage (t := ⟨.garbage, "\x00"⟩) rfl (pieces rest)
  refine ⟨u, us, ?_, hu⟩
  rw [show name.toList ++ '\x00' :: rest = (Token.mk .ruleName name).text.toList ++ '\x00' :: rest from rfl,
    pieces_of_stands hstands, hzero, mergeGarbage_cons, hmerge]
  rfl

end Lexer

theorem lexemesFrom_cons {t : Token} (ht : t.kind.isTrivia = false) (start : Nat) (leading : List Token) (opens : Bool)
    (ts : List Token) : (lexemesFrom start leading opens (t :: ts)).1 =
      ⟨leading, t, start, opens⟩ :: (lexemesFrom (start + t.size) [] false ts).1 := by
  rw [lexemesFrom, ht]
  rfl

/-- Behind a name there is no zero byte in a document that can be compiled. --/
theorem not_zero_of_compile {source : String} {o : CompileOptions} {c : Compilation} (hc : compile source o = .ok c)
    {name : String} (hname : isName name = true) : ¬name.toList ++ ['\x00'] <+: source.toList := by
  rintro ⟨rest, hsource⟩
  obtain ⟨u, us, htokens, hu⟩ := Lexer.mergeGarbage_zero hname rest
  rw [← List.singleton_append, ← List.append_assoc, hsource] at htokens
  have hderives := derives_definitions (read_of_compile hc)
  generalize (parse source o.nestingLimit).tree.definitions = ds at hderives
  -- The garbage is on the line of the name, so it stands where the sign of the rule has to be.
  have htrivia : u.kind.isTrivia = false := by rw [hu]; rfl
  rw [tokenize, htokens, lexemes, lexemesFrom_cons rfl, lexemesFrom_cons htrivia, chunks] at hderives
  cases hderives with
  | cons h _ =>
    rw [List.takeWhile_cons] at h
    dsimp only at h
    cases h with
    | rule _ hsign =>
      rw [Lexeme.kind, hu] at hsign
      cases hsign

namespace Library

/-- A document in a file is loaded as it is compiled over the core rules, whatever name it is compiled under, and goes by
    the name of the file then, unless it begins like a saved grammar. It is refused in that case, for being too small or
    for its version. --/
theorem loadFile_document {source name : String} {c : Compilation}
    (hc : compile source { name, base := some coreRules } = .ok c) {files : FileTree} {p : Path}
    (hread : files.read p = .ok (Utf8.bytes source)) :
    (¬Binary.magicText <+: source.toList → loadFile files p = .ok (c.grammar.setName (grammarName p))) ∧
      (Binary.magicText <+: source.toList →
        loadFile files p = .error (.unloadable p (.format (.fileTooSmall (Utf8.bytes source).length))) ∨
          ∃ version, loadFile files p = .error (.unloadable p (.version version))) := by
  rw [loadFile, hread]
  dsimp only
  constructor
  · intro hplain
    have hmagic : Binary.hasMagic (Utf8.bytes source) = false :=
      Bool.eq_false_iff.mpr (mt Binary.hasMagic_bytes_iff.mp hplain)
    have hnamed := compile_setName source { name, base := some coreRules } (grammarName p)
    rw [hc] at hnamed
    rw [grammarOfContent, hmagic, Utf8.text?_bytes]
    dsimp only
    rw [compileText, hnamed]
    rfl
  · intro hmagic
    have hname : isName "RKOG" = true := by decide +kernel
    have hascii : ∀ c ∈ Binary.magicText ++ ['\x00'], c.val.toNat < 0x80 :=
      List.forall_mem_append.mpr ⟨Binary.ascii_magicText, List.forall_mem_singleton.mpr (by decide)⟩
    have hzero : ¬Binary.magicBytes ++ [0] <+: Utf8.bytes source := by
      rw [Utf8.bytes_eq]
      exact fun h => not_zero_of_compile hc hname ((ascii_prefix_iff hascii).mp h)
    rw [grammarOfContent, if_pos (Binary.hasMagic_bytes_iff.mpr hmagic)]
    rcases Binary.decode_of_magic (Binary.hasMagic_bytes_iff.mpr hmagic) hzero with h | ⟨version, h⟩
    · exact Or.inl (by rw [h]; rfl)
    · exact Or.inr ⟨version, by rw [h]; rfl⟩

/-- The documents `RKOG = "x"` and `r = 1*DIGIT`. --/
def documents : FileTree where
  current := []
  entries := [(["g.abnf"], .file (Utf8.bytes "RKOG = \"x\"\n")), (["r.abnf"], .file (Utf8.bytes "r = 1*DIGIT\n")),
    ([], .directory)]

/-- The first of them can be compiled, and is not loaded. --/
theorem loadFile_document_marked :
    (∃ c, compile "RKOG = \"x\"\n" { base := some coreRules } = .ok c) ∧
      documents.read "/g.abnf" = .ok (Utf8.bytes "RKOG = \"x\"\n") ∧
      loadFile documents "/g.abnf" = .error (.unloadable "/g.abnf" (.format (.fileTooSmall 11))) := by
  have hok : (compile "RKOG = \"x\"\n" { base := some coreRules }).isOk = true := by decide +kernel
  have hread : documents.read "/g.abnf" = .ok (Utf8.bytes "RKOG = \"x\"\n") := by decide +kernel
  refine ⟨exists_of_isOk hok, hread, ?_⟩
  have hmagic : Binary.hasMagic (Utf8.bytes "RKOG = \"x\"\n") = true := by decide +kernel
  have hdecode : Binary.decode (Utf8.bytes "RKOG = \"x\"\n") = .error (.format (.fileTooSmall 11)) := rfl
  rw [loadFile, hread]
  dsimp only
  rw [grammarOfContent, if_pos hmagic, hdecode]
  rfl

theorem loadFile_document_plain :
    ∃ c, compile "r = 1*DIGIT\n" { base := some coreRules } = .ok c ∧
      documents.read "/r.abnf" = .ok (Utf8.bytes "r = 1*DIGIT\n") ∧
      ¬Binary.magicText <+: "r = 1*DIGIT\n".toList ∧ loadFile documents "/r.abnf" = .ok (c.grammar.setName "r") := by
  have hok : (compile "r = 1*DIGIT\n" { base := some coreRules }).isOk = true := by decide +kernel
  have hread : documents.read "/r.abnf" = .ok (Utf8.bytes "r = 1*DIGIT\n") := by decide +kernel
  have hplain : ¬Binary.magicText <+: "r = 1*DIGIT\n".toList := by decide +kernel
  have hname : grammarName "/r.abnf" = "r" := by decide +kernel
  obtain ⟨c, hc⟩ := exists_of_isOk hok
  exact ⟨c, hc, hread, hplain, hname ▸ (loadFile_document hc hread).1 hplain⟩

end Library
end Abnf
