import Abnf.Proofs.Binary.Totality
import Mathlib.Data.List.Dedup

/-! The string section of a file, whatever strings are added to it and in whatever order. A table lists the strings that were
    used, each at the place of its first use (`StringTable.Lists`), and every string that is added keeps it so; places,
    words and what is read back follow. A table that is searched by an index does the same (`Interner.Agrees`). What
    is read of a section that no table has written lies inside it all the same (`Machine.Strings.get_cases`). -/

namespace Abnf
namespace Binary

/-! ### First uses -/

section
variable {α : Type} [BEq α] [LawfulBEq α] {as : List α} {a : α}

/-- One more string is a further first use, unless it was used before. --/
theorem eraseDups_concat (as : List α) (a : α) :
    (as ++ [a]).eraseDups = if a ∈ as then as.eraseDups else as.eraseDups ++ [a] := by
  rw [List.eraseDups_append, List.removeAll]
  by_cases h : a ∈ as
  · simp [h]
  · simp [h, List.eraseDups_cons]

theorem nodup_eraseDups (as : List α) : as.eraseDups.Nodup := by
  induction as using List.reverseRecOn with
  | nil => exact List.nodup_nil
  | append_singleton as a ih =>
    rw [eraseDups_concat]
    split
    · exact ih
    · rename_i h
      exact List.Nodup.append ih (List.nodup_singleton a) (by simpa using h)

/-- What is used later does not move the place of a first use. --/
theorem idxOf_eraseDups_append (h : a ∈ as) (bs : List α) : (as ++ bs).eraseDups.idxOf a = as.eraseDups.idxOf a := by
  rw [List.eraseDups_append, List.idxOf_append_of_mem (List.mem_eraseDups.mpr h)]

theorem idxOf_eraseDups_lt (h : a ∈ as) : as.eraseDups.idxOf a < as.eraseDups.length :=
  List.idxOf_lt_length_iff.mpr (List.mem_eraseDups.mpr h)

end

namespace StringTable

variable {t : StringTable} {used ss : List (List UInt8)}

/-- A table of the strings used so far, each at the place of its first use. --/
def Lists (t : StringTable) (used : List (List UInt8)) : Prop := t.entries.toList = used.eraseDups

theorem lists_empty : empty.Lists [] := rfl

theorem Lists.findIdx? (h : t.Lists used) (bs : List UInt8) :
    t.entries.findIdx? (· == bs) = if bs ∈ used then some (used.eraseDups.idxOf bs) else none := by
  obtain ⟨⟨es⟩⟩ := t
  obtain rfl : es = used.eraseDups := h
  rw [List.findIdx?_toArray]
  split
  · rename_i hbs
    exact List.findIdx?_eq_some_iff_findIdx_eq.mpr ⟨idxOf_eraseDups_lt hbs, rfl⟩
  · rename_i hbs
    refine List.findIdx?_eq_none_iff.mpr fun x hx => beq_eq_false_iff_ne.mpr ?_
    rintro rfl
    exact hbs (List.mem_eraseDups.mp hx)

/-- A string that was used before keeps its place, and nothing is added. --/
theorem Lists.intern_of_mem (h : t.Lists used) {bs : List UInt8} (hbs : bs ∈ used) :
    t.intern bs = (UInt32.ofNat (used.eraseDups.idxOf bs), t) := by
  rw [StringTable.intern, h.findIdx?, if_pos hbs]

/-- A new string gets the next place. --/
theorem Lists.intern_of_not_mem (h : t.Lists used) {bs : List UInt8} (hbs : bs ∉ used) :
    t.intern bs = (UInt32.ofNat used.eraseDups.length, ⟨t.entries.push bs⟩) := by
  have hsize : t.entries.size = used.eraseDups.length := by rw [← h, Array.length_toList]
  rw [StringTable.intern, h.findIdx?, if_neg hbs, hsize]

theorem Lists.intern (h : t.Lists used) (bs : List UInt8) : (t.intern bs).2.Lists (used ++ [bs]) ∧
    (t.intern bs).1 = UInt32.ofNat ((used ++ [bs]).eraseDups.idxOf bs) := by
  by_cases hbs : bs ∈ used
  · rw [h.intern_of_mem hbs, Lists, eraseDups_concat, if_pos hbs]
    exact ⟨h, rfl⟩
  · rw [h.intern_of_not_mem hbs, Lists, eraseDups_concat, if_neg hbs, Array.toList_push, h, List.idxOf_append,
      if_neg (mt List.mem_eraseDups.mp hbs)]
    exact ⟨rfl, by simp⟩

/-- Strings that are added one after the other, and the places that they get. --/
def internAll : List (List UInt8) → StringTable → List UInt32 × StringTable
  | [], t => ([], t)
  | bs :: rest, t =>
    let (id, t) := t.intern bs
    let (ids, t) := internAll rest t
    (id :: ids, t)

theorem Lists.internAll (h : t.Lists used) (ss : List (List UInt8)) : (t.internAll ss).2.Lists (used ++ ss) ∧
    (t.internAll ss).1 = ss.map fun bs => UInt32.ofNat ((used ++ ss).eraseDups.idxOf bs) := by
  induction ss generalizing t used with
  | nil => exact ⟨by rwa [List.append_nil], rfl⟩
  | cons bs rest ih =>
    obtain ⟨hlists, hid⟩ := h.intern bs
    obtain ⟨hrest, hids⟩ := ih hlists
    -- The place that `bs` got when it was added is its place among all of them, since later strings stand behind it.
    have hplace : (used ++ bs :: rest).eraseDups.idxOf bs = (used ++ [bs]).eraseDups.idxOf bs := by
      rw [List.append_cons, idxOf_eraseDups_append (List.mem_append_right _ (List.mem_singleton_self bs))]
    rw [← List.append_cons] at hrest hids
    refine ⟨hrest, ?_⟩
    rw [StringTable.internAll, List.map_cons, hplace, ← hid, ← hids]

theorem Lists.of_mem_zip (h : t.Lists used) {p : List UInt8 × UInt32} (hp : p ∈ ss.zip (t.internAll ss).1) :
    p.1 ∈ ss ∧ p.2 = UInt32.ofNat ((used ++ ss).eraseDups.idxOf p.1) := by
  rw [(h.internAll ss).2, List.zip_map_right, List.mem_map] at hp
  obtain ⟨⟨as, bs⟩, hmem, rfl⟩ := hp
  obtain ⟨i, hi, heq⟩ := List.mem_iff_getElem.mp hmem
  rw [List.getElem_zip] at heq
  cases heq
  exact ⟨List.getElem_mem _, rfl⟩

/-! ### How many strings there are -/

/-- A string of at most one byte is told by its first byte, or by having none. --/
theorem length_short_le (h : ss.Nodup) : (ss.filter fun bs => bs.length ≤ 1).length ≤ 257 := by
  have hinj : ∀ as ∈ ss.filter (fun bs => bs.length ≤ 1), ∀ bs ∈ ss.filter (fun bs => bs.length ≤ 1),
      as.head? = bs.head? → as = bs := by
    intro as has bs hbs heq
    have has := (List.mem_filter.mp has).2
    have hbs := (List.mem_filter.mp hbs).2
    match as, bs with
    | [], [] => rfl
    | [a], [b] => rw [Option.some.inj heq]
    | [], _ :: _ | _ :: _, [] => cases heq
    | _ :: _ :: _, _ => simp at has
    | _, _ :: _ :: _ => simp at hbs
  have hnodup := (h.filter fun bs => bs.length ≤ 1).map_on hinj
  calc (ss.filter fun bs => bs.length ≤ 1).length
    _ = ((ss.filter fun bs => bs.length ≤ 1).map List.head?).toFinset.card := by
      rw [List.toFinset_card_of_nodup hnodup, List.length_map]
    _ ≤ Grammar.elements.card := Finset.card_le_card fun x _ => Grammar.mem_elements x
    _ ≤ 257 := Grammar.card_elements_le

theorem length_long_le : ∀ ss : List (List UInt8),
    2 * (ss.filter fun bs => !decide (bs.length ≤ 1)).length ≤ ss.flatten.length
  | [] => Nat.le_refl _
  | bs :: ss => by
    have ih := length_long_le ss
    rw [List.filter_cons, List.flatten_cons, List.length_append]
    split
    · rename_i hbs
      simp only [Bool.not_eq_true', decide_eq_false_iff_not] at hbs
      rw [List.length_cons]
      omega
    · omega

/-- Different strings take two bytes each, apart from the empty one and those of a single byte. So a section whose bytes
    have 32-bit offsets has no more strings than there are words. --/
theorem length_le_of_nodup (h : ss.Nodup) : 2 * ss.length ≤ ss.flatten.length + 514 := by
  have hsplit := List.length_eq_length_filter_add (l := ss) fun bs => decide (bs.length ≤ 1)
  have hshort := length_short_le h
  have hlong := length_long_le ss
  omega

/-! ### The table that is written -/

section
variable (h : t.Lists ss) (hss : ss.eraseDups.flatten.length < 2 ^ 32)
include h

theorem Lists.size_eq : t.entries.size = ss.eraseDups.length := by
  rw [← h, Array.length_toList]

theorem Lists.blob_eq : t.blob = ss.eraseDups.flatten := congrArg List.flatten h

include hss

theorem Lists.size_lt : t.entries.size < 2 ^ 32 := by
  have := length_le_of_nodup (nodup_eraseDups ss)
  rw [h.size_eq]
  omega

theorem Lists.toNat_place {bs : List UInt8} (hbs : bs ∈ ss) :
    (UInt32.ofNat (ss.eraseDups.idxOf bs)).toNat = ss.eraseDups.idxOf bs := by
  refine UInt32.toNat_ofNat_of_lt' (Nat.lt_trans ?_ (h.size_lt hss))
  rw [h.size_eq]
  exact idxOf_eraseDups_lt hbs

theorem Lists.place_inj {as bs : List UInt8} (has : as ∈ ss) (hbs : bs ∈ ss) :
    UInt32.ofNat (ss.eraseDups.idxOf as) = UInt32.ofNat (ss.eraseDups.idxOf bs) ↔ as = bs := by
  refine ⟨fun heq => ?_, fun heq => by rw [heq]⟩
  have hplace : ss.eraseDups.idxOf as = ss.eraseDups.idxOf bs := by
    rw [← h.toNat_place hss has, ← h.toNat_place hss hbs, heq]
  exact (List.idxOf_inj (List.mem_eraseDups.mpr has)).mp hplace

theorem Lists.holds {bs : List UInt8} (hbs : bs ∈ ss) : t.Holds (UInt32.ofNat (ss.eraseDups.idxOf bs)) bs := by
  rw [Holds, h.toNat_place hss hbs, h, List.getElem?_eq_getElem (idxOf_eraseDups_lt hbs), List.getElem_idxOf]

theorem Lists.get_place {bs : List UInt8} (hbs : bs ∈ ss) :
    t.view.get (UInt32.ofNat (ss.eraseDups.idxOf bs)) = .ok bs :=
  get_view (h.holds hss hbs) (h.size_lt hss) (by rwa [h.blob_eq])

theorem Lists.get_of_le {id : UInt32} (hid : t.entries.size ≤ id.toNat) : t.view.get id = .error (.badStringId id) := by
  have hcount : t.view.count.toNat = t.entries.size := UInt32.toNat_ofNat_of_lt' (h.size_lt hss)
  rw [StringView.get, if_pos (UInt32.le_iff_toNat_le.mpr (hcount ▸ hid))]

end

end StringTable

/-! ### Texts -/

theorem StringView.exists_getText_iff {v : StringView} {id : UInt32} {bs : List UInt8} (h : v.get id = .ok bs) :
    (∃ s, v.getText id = .ok s) ↔ bs.toByteArray.IsValidUTF8 := by
  rw [← Utf8.exists_text?_iff, StringView.getText, h, ok_bind]
  cases Utf8.text? bs with
  | none => simp
  | some s => simp

/-! ### A table with an index -/

/-- A table that is searched by an index of its own: for each string the word that it is known by. --/
structure Interner where
  ids : Std.HashMap (List UInt8) UInt32
  entries : Array (List UInt8)

namespace Interner

def empty : Interner := ⟨∅, #[]⟩

/-- The word for a string, made for it if it has none yet. --/
def intern (bs : List UInt8) (w : Interner) : UInt32 × Interner :=
  match w.ids[bs]? with
  | some id => (id, w)
  | none =>
    let id := UInt32.ofNat w.entries.size
    (id, ⟨w.ids.insert bs id, w.entries.push bs⟩)

def internAll : List (List UInt8) → Interner → List UInt32 × Interner
  | [], w => ([], w)
  | bs :: rest, w =>
    let (id, w) := w.intern bs
    let (ids, w) := internAll rest w
    (id :: ids, w)

/-- The bytes of all strings, and where each begins among them, with the end of the last. --/
def written (w : Interner) : List UInt8 × List UInt32 :=
  let (blob, offsets) := w.entries.foldl (fun (blob, offsets) bs =>
    (blob ++ bs, offsets ++ [UInt32.ofNat blob.length])) ([], [])
  (blob, offsets ++ [UInt32.ofNat blob.length])

/-- The index says of each string what a search through the table finds. --/
structure Agrees (w : Interner) (t : StringTable) : Prop where
  entries : w.entries = t.entries
  ids : ∀ bs, w.ids[bs]? = (t.entries.findIdx? (· == bs)).map UInt32.ofNat

variable {w : Interner} {t : StringTable}

theorem agrees_empty : empty.Agrees .empty := ⟨rfl, fun _ => by simp [empty, StringTable.empty]⟩

theorem Agrees.intern (h : w.Agrees t) (bs : List UInt8) :
    (w.intern bs).1 = (t.intern bs).1 ∧ (w.intern bs).2.Agrees (t.intern bs).2 := by
  rw [Interner.intern, StringTable.intern, h.ids bs, h.entries]
  cases hfind : t.entries.findIdx? (· == bs) with
  | some i => exact ⟨rfl, h⟩
  | none =>
    refine ⟨rfl, rfl, fun bs' => ?_⟩
    dsimp only [Option.map_none]
    rw [Std.HashMap.getElem?_insert, h.ids bs', Array.findIdx?_push]
    by_cases heq : bs = bs'
    · subst heq
      simp [hfind]
    · simp [heq]

theorem Agrees.internAll (h : w.Agrees t) (ss : List (List UInt8)) :
    (w.internAll ss).1 = (t.internAll ss).1 ∧ (w.internAll ss).2.Agrees (t.internAll ss).2 := by
  induction ss generalizing w t with
  | nil => exact ⟨rfl, h⟩
  | cons bs rest ih =>
    obtain ⟨hid, hagrees⟩ := h.intern bs
    obtain ⟨hids, hrest⟩ := ih hagrees
    rw [Interner.internAll, StringTable.internAll]
    exact ⟨congrArg₂ List.cons hid hids, hrest⟩

/-- Writing down one string after the other gives the same section. --/
theorem Agrees.written_eq (h : w.Agrees t) : w.written = (t.blob, t.offsets) := by
  -- The fold is followed with any bytes and offsets before it; an offset is then the length of those bytes.
  have main : ∀ (entries : List (List UInt8)) (blob : List UInt8) (offsets : List UInt32),
      let r := entries.foldl (fun (blob, offsets) bs => (blob ++ bs, offsets ++ [UInt32.ofNat blob.length])) (blob, offsets)
      (r.1, r.2 ++ [UInt32.ofNat r.1.length]) =
        (blob ++ entries.flatten, offsets ++ StringTable.offsetsFrom blob.length entries) := by
    intro entries
    induction entries with
    | nil => exact fun blob offsets => by simp [StringTable.offsetsFrom]
    | cons bs rest ih =>
      intro blob offsets
      refine (ih (blob ++ bs) (offsets ++ [UInt32.ofNat blob.length])).trans ?_
      simp [StringTable.offsetsFrom]
  rw [written, h.entries, ← Array.foldl_toList]
  exact main t.entries.toList [] []

end Interner

/-! ### Any section -/

/-- In a section of any bytes, with as many offsets as there have to be, a word that is no string's is refused, and
    for any other there are bytes of the section, or the table is refused. Nothing is looked up out of bounds. --/
theorem Machine.Strings.get_cases {s : Machine.Strings} (hs : s.offsets.length = (s.count.toNat + 1) * 4) (id : UInt32) :
    s.count ≤ id ∧ s.get id = Checked.refuse (.badStringId id) ∨
      id < s.count ∧ ((∃ start stop, start ≤ stop ∧ stop ≤ s.blob.length ∧
        s.get id = .ok ((s.blob.drop start).take (stop - start))) ∨ s.get id = Checked.refuse (.badStringTable id)) := by
  rw [Checked.answers_eq_iff.mp (answers_get hs id), StringView.get]
  by_cases hid : s.count ≤ id
  · exact .inl ⟨hid, by rw [if_pos (show (StringView.ofBytes s.blob s.offsets s.count).count ≤ id from hid)]; rfl⟩
  · refine .inr ⟨UInt32.not_le.mp hid, ?_⟩
    rw [if_neg (show ¬(StringView.ofBytes s.blob s.offsets s.count).count ≤ id from hid)]
    dsimp only
    split
    · rename_i hin
      refine .inl ⟨_, _, hin.1, hin.2.trans (List.size_toArray ..).le, congrArg Except.ok ?_⟩
      simp [StringView.ofBytes, List.take_drop]
    · exact .inr rfl

/-! ### The section -/

/-- Strings that are added to a table one after the other get the places of their first uses, so equal strings the same
    and different ones different words, which no later string changes. Read back from the bytes of the section, a word
    gives its string, as a text just if it is one, and a word beyond the last is refused. A table with an index hands
    out the same words and writes the same section. A section of any bytes is read without a fault. --/
theorem interned_strings_read_back (ss : List (List UInt8)) (hss : ss.eraseDups.flatten.length < 2 ^ 32) :
    let ids := (StringTable.empty.internAll ss).1
    let t := (StringTable.empty.internAll ss).2
    (t.entries.toList = ss.eraseDups ∧ ids.map UInt32.toNat = ss.map ss.eraseDups.idxOf) ∧
    (∀ p ∈ ss.zip ids, ∀ q ∈ ss.zip ids, p.2 = q.2 ↔ p.1 = q.1) ∧
    (∀ more, ∀ p ∈ ss.zip ids, (t.internAll more).2.intern p.1 = (p.2, (t.internAll more).2)) ∧
    (∀ p ∈ ss.zip ids, t.view.get p.2 = .ok p.1 ∧
      ((∃ s, t.view.getText p.2 = .ok s) ↔ p.1.toByteArray.IsValidUTF8)) ∧
    (∀ id : UInt32, t.entries.size ≤ id.toNat → t.view.get id = .error (.badStringId id)) ∧
    ((Interner.empty.internAll ss).1 = ids ∧ (Interner.empty.internAll ss).2.written = (t.blob, t.offsets)) ∧
    ∀ (s : Machine.Strings) (id : UInt32), s.offsets.length = (s.count.toNat + 1) * 4 →
      s.get id = Checked.answer ((StringView.ofBytes s.blob s.offsets s.count).get id) ∧
      (s.count ≤ id ∧ s.get id = Checked.refuse (.badStringId id) ∨
        id < s.count ∧ ((∃ start stop, start ≤ stop ∧ stop ≤ s.blob.length ∧
          s.get id = .ok ((s.blob.drop start).take (stop - start))) ∨ s.get id = Checked.refuse (.badStringTable id))) := by
  intro ids t
  have hall := StringTable.lists_empty.internAll ss
  rw [List.nil_append] at hall
  have hlists : t.Lists ss := hall.1
  have hzip : ∀ p ∈ ss.zip ids, p.1 ∈ ss ∧ p.2 = UInt32.ofNat (ss.eraseDups.idxOf p.1) := fun p hp =>
    StringTable.lists_empty.of_mem_zip hp
  refine ⟨⟨hlists, ?_⟩, ?_, ?_, ?_, ?_, ?_, ?_⟩
  · rw [show ids = _ from hall.2, List.map_map]
    exact List.map_congr_left fun bs hbs => hlists.toNat_place hss hbs
  · intro p hp q hq
    rw [(hzip p hp).2, (hzip q hq).2]
    exact hlists.place_inj hss (hzip p hp).1 (hzip q hq).1
  · intro more p hp
    obtain ⟨hmem, hid⟩ := hzip p hp
    rw [(hlists.internAll more).1.intern_of_mem (List.mem_append_left more hmem), idxOf_eraseDups_append hmem, hid]
  · intro p hp
    obtain ⟨hmem, hid⟩ := hzip p hp
    have hget : t.view.get p.2 = .ok p.1 := hid ▸ hlists.get_place hss hmem
    exact ⟨hget, StringView.exists_getText_iff hget⟩
  · exact fun id hid => hlists.get_of_le hss hid
  · obtain ⟨hids, hagrees⟩ := Interner.agrees_empty.internAll ss
    exact ⟨hids, hagrees.written_eq⟩
  · exact fun s id hs => ⟨Checked.answers_eq_iff.mp (Machine.Strings.answers_get hs id), Machine.Strings.get_cases hs id⟩

/-- A string that comes twice, the empty one, and one that is no text. --/
def repeated : List (List UInt8) := [[0x61], [], [0x61], [0xFF]]

/-- The second use gets the word of the first, and each word is read back. --/
theorem interned_strings_read_back_repeated :
    let t := (StringTable.empty.internAll repeated).2
    repeated.eraseDups.flatten.length < 2 ^ 32 ∧
    (StringTable.empty.internAll repeated).1 = [0, 1, 0, 2] ∧ (t.intern [0xFF]).1 = 2 ∧
    (t.view.get 0 = .ok [0x61] ∧ t.view.get 1 = .ok [] ∧ t.view.get 2 = .ok [0xFF]) ∧
    ((∃ s, t.view.getText 1 = .ok s) ∧ ¬∃ s, t.view.getText 2 = .ok s) ∧
    t.view.get 3 = .error (.badStringId 3) := by
  intro t
  have hlt : repeated.eraseDups.flatten.length < 2 ^ 32 := by decide
  obtain ⟨⟨hentries, hplaces⟩, -, hkept, hread, hbeyond, -, -⟩ := interned_strings_read_back repeated hlt
  have hids : (StringTable.empty.internAll repeated).1 = [0, 1, 0, 2] :=
    List.map_injective_iff.mpr (fun _ _ => UInt32.toNat_inj.mp) hplaces
  have hsize : t.entries.size = 3 := congrArg List.length hentries
  rw [hids] at hkept hread
  have ha := hread ([0x61], 0) (by decide)
  have hnil := hread ([], 1) (by decide)
  have hbyte := hread ([0xFF], 2) (by decide)
  refine ⟨hlt, hids, congrArg Prod.fst (hkept [] ([0xFF], 2) (by decide)), ⟨ha.1, hnil.1, hbyte.1⟩,
    ⟨hnil.2.mpr (by decide), fun h => ?_⟩, hbeyond 3 (by rw [hsize]; decide)⟩
  exact absurd (hbyte.2.mp h) (by decide)

end Binary
end Abnf
