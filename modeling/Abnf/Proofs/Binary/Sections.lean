import Abnf.Proofs.Binary.Format

/-! The sections of a file are where its header says (`ofBytes_eq_ok`), and so they are found when it is read. -/

namespace Abnf.Binary

/-! ### Cutting bytes up -/

theorem exists_append {α : Type} (xs : List α) {n : Nat} (h : n ≤ xs.length) :
    ∃ ys zs, xs = ys ++ zs ∧ ys.length = n :=
  ⟨xs.take n, xs.drop n, (List.take_append_drop n xs).symm, List.length_take_of_le h⟩

theorem slice_append {m : Image} {start stop : Nat} {section_ : List UInt8} (front rest : List UInt8)
    (h : m.bytes = front ++ (section_ ++ rest)) (hstart : start = front.length)
    (hstop : stop = start + section_.length) : m.slice start stop = section_ := by
  subst hstart hstop
  rw [Image.slice, h, List.drop_left, Nat.add_sub_cancel_left, List.take_left]

/-! ### Headers -/

namespace Header

variable {h : Header}

theorem length_bytes (hmagic : h.magic = magicBytes) (hreserved : h.reserved.length = 28) :
    h.bytes.length = headerSize := by
  simp [bytes, hmagic, hreserved, magicBytes, headerSize]

theorem ofBytes?_append (hmagic : h.magic = magicBytes) (hreserved : h.reserved.length = 28) (rest : List UInt8) :
    ofBytes? (h.bytes ++ rest) = some h := by
  obtain ⟨magic, version, checksum, totalSize, stringBytes, stringCount, ruleCount, nodeCount, name, reserved⟩ := h
  dsimp only at hmagic hreserved
  subst hmagic
  have hlen : ¬reserved.length + rest.length + 36 < 64 := by omega
  simpa [ofBytes?, bytes, magicBytes, Word.bytes, wordAt, Word.read?, Word.ofBytes_bytes, headerSize,
    List.take_left' hreserved] using hlen

theorem bytes_wordAt {bs : List UInt8} {k : Nat} (hk : k + 4 ≤ bs.length) :
    Word.bytes (wordAt bs k) = (bs.drop k).take 4 := by
  have hlen : 4 ≤ (bs.drop k).length := by
    rw [List.length_drop]
    omega
  obtain ⟨w, rest, hw, hwlen⟩ := exists_append _ hlen
  obtain ⟨ws, hws, rfl⟩ := Word.exists_flatMap (n := 1) hwlen
  obtain ⟨w, rfl⟩ := List.length_eq_one_iff.mp hws
  rw [List.flatMap_singleton] at hw
  rw [wordAt, hw, Word.read?_bytes_append, List.take_left' (Word.length_bytes w)]
  rfl

/-- A header is made of the first bytes of a file. --/
theorem bytes_of_ofBytes? {bs : List UInt8} (hbs : ofBytes? bs = some h) :
    h.reserved.length = 28 ∧ bs = h.bytes ++ bs.drop headerSize := by
  unfold ofBytes? at hbs
  split at hbs
  · cases hbs
  · rename_i hlen
    rw [headerSize] at hlen
    obtain rfl := Option.some.inj hbs
    constructor
    · simp only [List.length_take, List.length_drop]
      omega
    · have hword : ∀ k, k ≤ 32 → Word.bytes (wordAt bs k) = (bs.drop k).take 4 :=
        fun k hk => bytes_wordAt (by omega)
      simp only [bytes, hword, Nat.reduceLeDiff, ← List.take_add, Nat.reduceAdd]
      exact (List.take_append_drop 64 bs).symm

end Header

/-! ### Sections -/

namespace Sections

/-- A file as it is read. --/
def image (s : Sections) : Image := ⟨s.header, s.bytes⟩

section
variable {s : Sections} (h : s.Fit)
include h

theorem Fit.length_header : s.header.bytes.length = headerSize := Header.length_bytes h.magic h.reserved

theorem Fit.offsetsOffset : s.header.offsetsOffset = headerSize + s.blob.length := by
  rw [Header.offsetsOffset, h.stringBytes, Header.stringsOffset]

theorem Fit.indexOffset : s.header.indexOffset = headerSize + s.blob.length + s.offsets.length * 4 := by
  rw [Header.indexOffset, h.offsetsOffset, h.stringCount]

theorem Fit.recordsOffset :
    s.header.recordsOffset = headerSize + s.blob.length + s.offsets.length * 4 + s.index.length * 4 := by
  rw [Header.recordsOffset, h.indexOffset, h.ruleCount]

theorem Fit.slice_blob : s.image.slice headerSize s.header.offsetsOffset = s.blob :=
  slice_append s.header.bytes _ rfl h.length_header.symm h.offsetsOffset

theorem Fit.slice_offsets :
    s.image.slice s.header.offsetsOffset s.header.indexOffset = s.offsets.flatMap Word.bytes := by
  refine slice_append (s.header.bytes ++ s.blob) (s.index.flatMap Word.bytes ++ s.records) ?_ ?_ ?_
  · simp only [image, bytes, content, List.append_assoc]
  · rw [List.length_append, h.length_header, h.offsetsOffset]
  · rw [h.indexOffset, h.offsetsOffset, Word.length_flatMap_bytes]

theorem Fit.slice_index :
    s.image.slice s.header.indexOffset s.header.recordsOffset = s.index.flatMap Word.bytes := by
  refine slice_append (s.header.bytes ++ (s.blob ++ s.offsets.flatMap Word.bytes)) s.records ?_ ?_ ?_
  · simp only [image, bytes, content, List.append_assoc]
  · rw [List.length_append, List.length_append, h.length_header, Word.length_flatMap_bytes, h.indexOffset,
      Nat.add_assoc]
  · rw [h.recordsOffset, h.indexOffset, Word.length_flatMap_bytes]

theorem Fit.strings : s.image.strings = ⟨s.blob.toArray, s.offsets.toArray, s.header.stringCount⟩ := by
  rw [Image.strings]
  show StringView.ofBytes (s.image.slice headerSize s.header.offsetsOffset)
    (s.image.slice s.header.offsetsOffset s.header.indexOffset) s.header.stringCount = _
  rw [h.slice_blob, h.slice_offsets, StringView.ofBytes, Word.all_flatMap_bytes]

theorem Fit.imageIndex : s.image.index = s.index := by
  rw [Image.index]
  show Word.all (s.image.slice s.header.indexOffset s.header.recordsOffset) = _
  rw [h.slice_index, Word.all_flatMap_bytes]

theorem Fit.drop_recordsOffset : s.bytes.drop s.header.recordsOffset = s.records := by
  have hsplit : s.bytes = (s.header.bytes ++ (s.blob ++ (s.offsets.flatMap Word.bytes ++ s.index.flatMap Word.bytes))) ++
      s.records := by
    simp only [bytes, content, List.append_assoc]
  have hlen : s.header.recordsOffset =
      (s.header.bytes ++ (s.blob ++ (s.offsets.flatMap Word.bytes ++ s.index.flatMap Word.bytes))).length := by
    simp only [List.length_append, h.length_header, Word.length_flatMap_bytes, h.recordsOffset, Nat.add_assoc]
  rw [hsplit, hlen, List.drop_left]

/-- A string is read just if it stands between its offsets. --/
theorem Fit.get_eq_ok {id : UInt32} {bs : List UInt8} : s.image.strings.get id = .ok bs ↔ s.Holds id bs := by
  have hcount := h.stringCount
  rw [h.strings, StringView.get]
  dsimp only
  by_cases hid : s.header.stringCount ≤ id
  · rw [if_pos hid]
    constructor
    · intro hget
      cases hget
    · rintro ⟨-, stop, -, hstop, -⟩
      have hlt := (List.getElem?_eq_some_iff.mp hstop).1
      rw [UInt32.le_iff_toNat_le] at hid
      omega
  · rw [if_neg hid]
    rw [UInt32.le_iff_toNat_le] at hid
    have hstart : s.offsets[id.toNat]? = some s.offsets[id.toNat] := List.getElem?_eq_getElem (by omega)
    have hstop : s.offsets[id.toNat + 1]? = some s.offsets[id.toNat + 1] := List.getElem?_eq_getElem (by omega)
    rw [Array.getD_eq_getD_getElem?, Array.getD_eq_getD_getElem?, List.getElem?_toArray, List.getElem?_toArray, hstart,
      hstop, Option.getD_some, Option.getD_some, List.size_toArray]
    constructor
    · intro hget
      split at hget
      · rename_i hle
        cases hget
        exact ⟨_, _, hstart, hstop, hle.1, hle.2, by simp [List.take_drop]⟩
      · cases hget
    · rintro ⟨start, stop, hstart', hstop', hle, hblob, rfl⟩
      obtain rfl := Option.some.inj (hstart.symm.trans hstart')
      obtain rfl := Option.some.inj (hstop.symm.trans hstop')
      rw [if_pos ⟨hle, hblob⟩]
      simp

theorem Fit.ofBytes : Image.ofBytes s.bytes = .ok s.image := by
  have hdrop : s.bytes.drop headerSize = s.content := by
    rw [bytes, ← h.length_header, List.drop_left]
  have hfits : ¬s.bytes.length < s.header.recordsOffset := by
    simp only [h.recordsOffset, bytes, content, List.length_append, h.length_header, Word.length_flatMap_bytes]
    omega
  have hmagic : s.header.hasMagic = true := beq_iff_eq.mpr h.magic
  have hversion : s.header.hasVersion = true := beq_iff_eq.mpr h.version
  rw [Image.ofBytes, bytes, Header.ofBytes?_append h.magic h.reserved, ← bytes]
  dsimp only
  rw [hdrop, hmagic, hversion, h.totalSize, h.checksum]
  simp only [Bool.not_true, Bool.false_eq_true, if_false, ne_eq, not_true_eq_false, hfits]
  rfl

end

/-- Bytes that are long enough for a header are cut up as it says. --/
theorem exists_sections (h : Header) (rest : List UInt8) (hle : h.recordsOffset ≤ headerSize + rest.length) :
    ∃ s : Sections, s.header = h ∧ s.content = rest ∧ h.stringBytes.toNat = s.blob.length ∧
      h.stringCount.toNat + 1 = s.offsets.length ∧ h.ruleCount.toNat = s.index.length := by
  rw [Header.recordsOffset, Header.indexOffset, Header.offsetsOffset, Header.stringsOffset] at hle
  obtain ⟨blob, rest, rfl, hblob⟩ := exists_append rest (n := h.stringBytes.toNat) (by omega)
  rw [List.length_append] at hle
  obtain ⟨bs, rest, rfl, hoffsets⟩ := exists_append rest (n := (h.stringCount.toNat + 1) * 4) (by omega)
  rw [List.length_append] at hle
  obtain ⟨cs, records, rfl, hindex⟩ := exists_append rest (n := h.ruleCount.toNat * 4) (by omega)
  obtain ⟨offsets, hlen, rfl⟩ := Word.exists_flatMap hoffsets
  obtain ⟨index, hlen', rfl⟩ := Word.exists_flatMap hindex
  exact ⟨⟨h, blob, offsets, index, records⟩, rfl, rfl, hblob.symm, hlen.symm, hlen'.symm⟩

/-- A header passes just if the file has the parts that it tells of. --/
theorem ofBytes_eq_ok {bs : List UInt8} {m : Image} :
    Image.ofBytes bs = .ok m ↔ ∃ s : Sections, s.Fit ∧ s.bytes = bs ∧ s.image = m := by
  constructor
  · intro h
    unfold Image.ofBytes at h
    cases hh : Header.ofBytes? bs with
    | none =>
      rw [hh] at h
      cases h
    | some header =>
      rw [hh] at h
      dsimp only at h
      obtain ⟨hreserved, hbs⟩ := Header.bytes_of_ofBytes? hh
      split at h <;> rename_i hmagic
      · cases h
      split at h <;> rename_i hversion
      · cases h
      split at h <;> rename_i hsize
      · cases h
      split at h <;> rename_i hsum
      · cases h
      split at h <;> rename_i hfits
      · cases h
      cases h
      have hmagic : header.magic = magicBytes := by simpa [Header.hasMagic] using hmagic
      have hversion : header.version = formatVersion := by simpa [Header.hasVersion] using hversion
      have hlen := congrArg List.length hbs
      rw [List.length_append, Header.length_bytes hmagic hreserved] at hlen
      obtain ⟨s, rfl, hcontent, hstrings, hoffsets, hindex⟩ :=
        exists_sections header (bs.drop headerSize) (by omega)
      have hbytes : s.bytes = bs := by rw [bytes, hcontent, ← hbs]
      refine ⟨s, ⟨hmagic, hversion, hreserved, ?_, ?_, hstrings, hoffsets, hindex⟩, hbytes, by rw [image, hbytes]⟩
      · rw [hbytes]
        exact not_not.mp hsize
      · rw [hcontent]
        exact (not_not.mp hsum).symm
  · rintro ⟨s, hs, rfl, rfl⟩
    exact hs.ofBytes

end Sections

end Abnf.Binary
