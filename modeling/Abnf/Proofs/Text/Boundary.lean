import Abnf.Match.Occurrence
import Abnf.Proofs.Text.Utf8
import Abnf.Text.Byte

/-! Places in a text that lie between its characters. From one such place a text goes on as text, and where bytes that
    follow it are text by themselves there is another (`Boundary.stop`). What lies between two of them is a text that the
    source quotes: it is read out of the source's bytes as it stands there, and nothing in it is replaced
    (`Span.Covers.text?`). -/

namespace Abnf

/-- An offset in a source, or at its end, that is not inside a character. --/
def Boundary (source : String) (n : Nat) : Prop := String.Pos.Raw.IsValid source ⟨n⟩

section
variable {source : String} {n : Nat}

theorem boundary_iff : Boundary source n ↔ ∃ before after : String, source = before ++ after ∧ n = before.utf8ByteSize := by
  rw [Boundary, String.Pos.Raw.isValid_iff_exists_append]
  simp only [String.Pos.Raw.ext_iff, String.byteIdx_rawEndPos]

theorem Boundary.le (h : Boundary source n) : n ≤ source.utf8ByteSize := by
  obtain ⟨before, after, rfl, rfl⟩ := boundary_iff.mp h
  rw [String.utf8ByteSize_append]
  exact Nat.le_add_right _ _

end

/-! ### Bytes that are text -/

/-- Bytes that spell a text. --/
def Spells (bs : List UInt8) : Prop := ∃ cs : List Char, bs = cs.flatMap String.utf8EncodeChar

theorem spells_of_isSome_text? {bs : List UInt8} (h : (Utf8.text? bs).isSome = true) : Spells bs := by
  obtain ⟨s, hs⟩ := Option.isSome_iff_exists.mp h
  rw [Utf8.text?_eq_some.mp hs]
  exact ⟨s.toList, Utf8.bytes_eq s⟩

theorem spells_char (c : Char) : Spells (String.utf8EncodeChar c) := ⟨[c], by simp⟩

theorem spells_byte {b : UInt8} (hb : b.toNat < 0x80) : Spells [b] := by
  have hval : b.toUInt32.toNat = b.toNat := UInt8.toNat_toUInt32 b
  have hlt : b.toUInt32.toNat < 0x80 := hval ▸ hb
  have hvalid : b.toUInt32.isValidChar := .inl (Nat.lt_trans hlt (by decide))
  have henc := utf8EncodeChar_ascii (c := ⟨b.toUInt32, hvalid⟩) hlt
  have hback : b.toUInt32.toUInt8 = b := by
    rw [← UInt8.toNat_inj, UInt32.toNat_toUInt8, hval]
    omega
  rw [hback] at henc
  exact henc ▸ spells_char _

theorem Spells.append {as bs : List UInt8} : Spells as → Spells bs → Spells (as ++ bs)
  | ⟨cs, hcs⟩, ⟨ds, hds⟩ => ⟨cs ++ ds, by rw [hcs, hds, List.flatMap_append]⟩

/-! ### Letter case -/

/-- A byte beyond ASCII has no other form. --/
theorem Byte.eq_of_lower_eq {a b : UInt8} (hb : 0x80 ≤ b.toNat) (h : lower a = lower b) : a = b := by
  simp only [lower, UInt8.le_iff_toNat_le] at h
  rw [← UInt8.toNat_inj] at h ⊢
  split at h <;> split at h <;> simp only [UInt8.toNat_add, UInt8.reduceToNat] at * <;> omega

theorem Byte.lt_of_lower_eq {a b : UInt8} (hb : b.toNat < 0x80) (h : lower a = lower b) : a.toNat < 0x80 := by
  refine Nat.lt_of_not_le fun ha => ?_
  rw [eq_of_lower_eq ha h.symm] at hb
  exact Nat.not_lt.mpr ha hb

theorem eq_of_map_lower_eq : ∀ {as bs : List UInt8}, (∀ b ∈ bs, 0x80 ≤ b.toNat) →
    as.map Byte.lower = bs.map Byte.lower → as = bs
  | as, [], _, h => List.map_eq_nil_iff.mp h
  | as, b :: bs, hbs, h => by
    obtain ⟨hb, hbs⟩ := List.forall_mem_cons.mp hbs
    obtain ⟨a, as', rfl, ha, has⟩ := List.map_eq_cons_iff.mp h
    rw [Byte.eq_of_lower_eq hb ha, eq_of_map_lower_eq hbs has]

/-- What differs from a text in the case of its letters only is text. --/
theorem spells_of_map_lower_eq : ∀ {cs : List Char} {bs : List UInt8},
    bs.map Byte.lower = (cs.flatMap String.utf8EncodeChar).map Byte.lower → Spells bs
  | [], bs, h => ⟨[], List.map_eq_nil_iff.mp h⟩
  | c :: cs, bs, h => by
    rw [List.flatMap_cons, List.map_append] at h
    obtain ⟨first, rest, rfl, hfirst, hrest⟩ := List.map_eq_append_iff.mp h
    refine .append ?_ (spells_of_map_lower_eq hrest)
    rcases Nat.lt_or_ge c.val.toNat 0x80 with hc | hc
    · rw [utf8EncodeChar_ascii hc] at hfirst
      obtain ⟨b, rfl, hb⟩ := List.map_eq_singleton_iff.mp hfirst
      refine spells_byte (Byte.lt_of_lower_eq ?_ hb)
      rw [UInt32.toNat_toUInt8]
      omega
    · exact eq_of_map_lower_eq (le_of_mem_utf8EncodeChar hc) hfirst ▸ spells_char c

/-! ### From place to place -/

/-- Where bytes that follow a place are text, there is a place behind them. --/
theorem Boundary.stop {source : String} {pos stop : Nat} (h : Boundary source pos) (hle : pos ≤ stop)
    (hstop : stop ≤ source.utf8ByteSize) (htext : Spells (source.toByteArray.extract pos stop).data.toList) : Boundary source stop := by
  obtain ⟨cs, hcs⟩ := htext
  have hvalid : (source.toByteArray.extract pos stop).IsValidUTF8 := by
    refine ⟨cs, ?_⟩
    rw [List.utf8Encode, ← hcs]
    ext1
    rw [List.data_toByteArray, Array.toArray_toList]
  obtain heq | hboth := (String.Pos.Raw.isValidUTF8_extract_iff ⟨pos⟩ ⟨stop⟩ hle hstop).mp hvalid
  · cases heq
    exact h
  · exact hboth.2

/-- A span of a source that covers a text of it, as it stands there. --/
def Span.Covers (source : String) (s : Span) (text : String) : Prop :=
  ∃ before after : String, source = before ++ text ++ after ∧ s.start = before.utf8ByteSize ∧
    s.stop = s.start + text.utf8ByteSize

section
variable {source : String} {s : Span}

/-- Between two places there is a text of the source. --/
theorem Boundary.covers (hstart : Boundary source s.start) (hstop : Boundary source s.stop) (hle : s.start ≤ s.stop) :
    ∃ text, s.Covers source text := by
  have hvalid : (source.toByteArray.extract s.start s.stop).IsValidUTF8 :=
    (String.Pos.Raw.isValidUTF8_extract_iff ⟨s.start⟩ ⟨s.stop⟩ hle hstop.le).mpr (.inr ⟨hstart, hstop⟩)
  obtain ⟨before, rest, hrest, hbefore⟩ := boundary_iff.mp hstart
  obtain ⟨upTo, after, hafter, hupTo⟩ := boundary_iff.mp hstop
  -- Of the two texts that begin at the beginning, only what comes first is used, and of those up to the end what comes last.
  have hfirst : source.toByteArray.extract 0 s.start = before.toByteArray := by
    rw [hrest, String.toByteArray_append]
    exact ByteArray.extract_append_eq_left (hbefore.trans String.size_toByteArray.symm)
  have hlast : source.toByteArray.extract s.stop source.toByteArray.size = after.toByteArray := by
    rw [hafter, String.toByteArray_append]
    exact ByteArray.extract_append_eq_right (hupTo.trans String.size_toByteArray.symm) ByteArray.size_append
  have hstop' : s.stop ≤ source.toByteArray.size := hstop.le
  refine ⟨String.fromUTF8 _ hvalid, before, after, ?_, hbefore, ?_⟩
  · rw [← String.toByteArray_inj, String.toByteArray_append, String.toByteArray_append, ← hfirst, ← hlast]
    show _ = source.toByteArray.extract 0 s.start ++ source.toByteArray.extract s.start s.stop ++ _
    rw [← ByteArray.extract_eq_extract_append_extract s.start (Nat.zero_le _) hle,
      ← ByteArray.extract_eq_extract_append_extract s.stop (Nat.zero_le _) hstop', ByteArray.extract_zero_size]
  · show s.stop = s.start + (source.toByteArray.extract s.start s.stop).size
    rw [ByteArray.size_extract, Nat.min_eq_left hstop']
    omega

/-- A text that a span covers is what is read there. --/
theorem Span.Covers.text? {text : String} (h : s.Covers source text) : s.text? source.toByteArray = some text := by
  obtain ⟨before, after, rfl, hstart, hstop⟩ := h
  simp only [String.toByteArray_append]
  have hbytes : (before.toByteArray ++ text.toByteArray ++ after.toByteArray).extract s.start s.stop =
      text.toByteArray := by
    rw [ByteArray.append_assoc, hstop, hstart, ← String.size_toByteArray, ← String.size_toByteArray]
    have hcut := @ByteArray.extract_append_size_add before.toByteArray (text.toByteArray ++ after.toByteArray) 0
      text.toByteArray.size
    rw [Nat.add_zero] at hcut
    rw [hcut, ByteArray.extract_append_eq_left rfl]
  have hsize : s.stop ≤ (before.toByteArray ++ text.toByteArray ++ after.toByteArray).size := by
    rw [ByteArray.size_append, ByteArray.size_append, String.size_toByteArray, String.size_toByteArray]
    omega
  rw [Span.text?, if_pos ⟨by omega, hsize⟩, hbytes]
  exact congrArg some (Utf8.lossy_bytes text)

end
end Abnf
