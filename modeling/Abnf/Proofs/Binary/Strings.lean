import Abnf.Binary.Strings
import Abnf.Proofs.Binary.Word
import Abnf.Proofs.Text.Utf8

/-! The table of strings. A string keeps its place while others are added behind it, and what is written of the
    table is read back as it was (`get_view`). -/

namespace Abnf
namespace Binary

namespace StringTable

/-- All strings of one table stand in another at the same places. --/
def Within (t u : StringTable) : Prop := t.entries.toList <+: u.entries.toList

/-- A string is known by a word. --/
def Holds (t : StringTable) (id : UInt32) (bs : List UInt8) : Prop := t.entries.toList[id.toNat]? = some bs

theorem Within.refl (t : StringTable) : t.Within t := List.prefix_refl _

theorem Within.trans {t u v : StringTable} (h₁ : t.Within u) (h₂ : u.Within v) : t.Within v :=
  List.IsPrefix.trans h₁ h₂

theorem Within.size_le {t u : StringTable} (h : t.Within u) : t.entries.size ≤ u.entries.size := by
  simpa using h.length_le

theorem Holds.within {t u : StringTable} {id : UInt32} {bs : List UInt8} (h : t.Holds id bs) (hw : t.Within u) :
    u.Holds id bs := by
  obtain ⟨more, hmore⟩ := hw
  rw [Holds, ← hmore, List.getElem?_append_left (List.getElem?_eq_some_iff.mp h).1]
  exact h

theorem within_intern (bs : List UInt8) (t : StringTable) : t.Within (t.intern bs).2 := by
  unfold intern
  split
  · exact Within.refl t
  · simp [Within]

/-- A string is in the table once it has been added, unless there are more strings than words. --/
theorem holds_intern (bs : List UInt8) (t : StringTable) (h : (t.intern bs).2.entries.size ≤ 2 ^ 32) :
    (t.intern bs).2.Holds (t.intern bs).1 bs := by
  unfold intern at h ⊢
  split
  · rename_i i hi
    rw [hi] at h
    obtain ⟨hlt, heq, -⟩ := Array.findIdx?_eq_some_iff_getElem.mp hi
    have hi : (UInt32.ofNat i).toNat = i := UInt32.toNat_ofNat_of_lt' (Nat.lt_of_lt_of_le hlt h)
    rw [Holds, hi, Array.getElem?_toList, Array.getElem?_eq_getElem hlt]
    simpa using heq
  · rename_i hnone
    rw [hnone] at h
    rw [Array.size_push] at h
    have hi : (UInt32.ofNat t.entries.size).toNat = t.entries.size := UInt32.toNat_ofNat_of_lt' h
    rw [Holds, hi]
    simp

/-! ### The table as it is written -/

theorem getElem?_offsetsFrom : ∀ (entries : List (List UInt8)) (start k : Nat), k ≤ entries.length →
    (offsetsFrom start entries)[k]? = some (UInt32.ofNat (start + (entries.take k).flatten.length))
  | [], start, k, h => by
    obtain rfl : k = 0 := Nat.le_zero.mp h
    rfl
  | bs :: rest, start, 0, _ => rfl
  | bs :: rest, start, k + 1, h => by
    rw [offsetsFrom, List.getElem?_cons_succ, getElem?_offsetsFrom rest _ k (Nat.le_of_succ_le_succ h)]
    simp [Nat.add_assoc]

@[simp] theorem length_offsetsFrom : ∀ (entries : List (List UInt8)) (start : Nat),
    (offsetsFrom start entries).length = entries.length + 1
  | [], _ => rfl
  | _ :: rest, _ => by rw [offsetsFrom, List.length_cons, length_offsetsFrom rest, List.length_cons]

/-- The view of the table as it is written. --/
def view (t : StringTable) : StringView :=
  StringView.ofBytes t.blob (t.offsets.flatMap Word.bytes) (UInt32.ofNat t.entries.size)

variable {t : StringTable} {id : UInt32} {bs : List UInt8}

theorem Holds.lt_size (h : t.Holds id bs) : id.toNat < t.entries.size := by
  simpa using (List.getElem?_eq_some_iff.mp h).1

/-- Where a string begins and ends among the bytes of all. --/
theorem Holds.blob_eq (h : t.Holds id bs) : t.blob =
    (t.entries.toList.take id.toNat).flatten ++ (bs ++ (t.entries.toList.drop (id.toNat + 1)).flatten) := by
  obtain ⟨hlt, hget⟩ := List.getElem?_eq_some_iff.mp h
  have hsplit : t.entries.toList =
      t.entries.toList.take id.toNat ++ bs :: t.entries.toList.drop (id.toNat + 1) := by
    rw [← hget, ← List.drop_eq_getElem_cons hlt, List.take_append_drop]
  calc t.blob
    _ = (t.entries.toList.take id.toNat ++ bs :: t.entries.toList.drop (id.toNat + 1)).flatten :=
      congrArg List.flatten hsplit
    _ = _ := by rw [List.flatten_append, List.flatten_cons]

theorem getD_offsets (hblob : t.blob.length < 2 ^ 32) {k : Nat} (hk : k ≤ t.entries.size) :
    ((t.view.offsets.getD k 0)).toNat = (t.entries.toList.take k).flatten.length := by
  have hget := getElem?_offsetsFrom t.entries.toList 0 k (by simpa using hk)
  have hle : (t.entries.toList.take k).flatten.length ≤ t.blob.length := by
    rw [blob, ← List.take_append_drop k t.entries.toList, List.flatten_append, List.length_append,
      List.take_append_drop]
    exact Nat.le_add_right _ _
  rw [view, StringView.ofBytes, Word.all_flatMap_bytes, offsets, Array.getD_eq_getD_getElem?, List.getElem?_toArray,
    hget, Option.getD_some, Nat.zero_add]
  exact UInt32.toNat_ofNat_of_lt' (Nat.lt_of_le_of_lt hle hblob)

/-- A string that is written is read back. --/
theorem get_view (h : t.Holds id bs) (hsize : t.entries.size < 2 ^ 32) (hblob : t.blob.length < 2 ^ 32) :
    t.view.get id = .ok bs := by
  have hlt := h.lt_size
  have hcount : t.view.count.toNat = t.entries.size := UInt32.toNat_ofNat_of_lt' hsize
  have hstart := getD_offsets hblob (Nat.le_of_lt hlt)
  have hstop := getD_offsets hblob (k := id.toNat + 1) hlt
  have htake : (t.entries.toList.take (id.toNat + 1)).flatten = (t.entries.toList.take id.toNat).flatten ++ bs := by
    rw [List.take_add_one, (h : t.entries.toList[id.toNat]? = some bs)]
    simp
  have hbytes : t.view.blob = t.blob.toArray := rfl
  rw [htake, List.length_append] at hstop
  rw [StringView.get, if_neg (by rw [UInt32.le_iff_toNat_le, hcount]; omega)]
  dsimp only
  rw [hstart, hstop, hbytes, if_pos]
  · rw [h.blob_eq]
    simp
  · refine ⟨Nat.le_add_right _ _, ?_⟩
    rw [List.size_toArray, h.blob_eq]
    simp only [List.length_append]
    omega

theorem getText_view {s : String} (h : t.Holds id (Utf8.bytes s)) (hsize : t.entries.size < 2 ^ 32)
    (hblob : t.blob.length < 2 ^ 32) : t.view.getText id = .ok s := by
  rw [StringView.getText, get_view h hsize hblob]
  simp only [bind, Except.bind, Utf8.text?_bytes]

end StringTable

end Binary
end Abnf
