import Abnf.Proofs.Document.Meaning
import Abnf.Proofs.Except

/-! Numeric values and repeats keep their meaning: a numeric value stands for a leaf that reads what the text of
    the value says (`NumVal.leaf_of_node`), and the bounds of a repeat are the numbers that it spells
    (`Repeat.bounds_eq`). -/

namespace Abnf

/-! ### Digits -/

namespace Digits

theorem split_eq_splitOn (separator : Char) : ∀ cs : List Char, split separator cs = cs.splitOn separator
  | [] => rfl
  | c :: cs => by
    rw [split, split_eq_splitOn separator cs, List.splitOn, List.splitOn, List.splitOnP_cons_eq_if_modifyHead]
    by_cases h : c = separator
    · rw [if_pos h, if_pos (beq_iff_eq.mpr h)]
    · rw [if_neg h, if_neg (by simpa using h)]
      cases hrest : List.splitOnP (· == separator) cs with
      | nil => exact absurd hrest (List.splitOnP_ne_nil _ cs)
      | cons piece pieces => rfl

theorem split_of_not_mem {separator : Char} {cs : List Char} (h : separator ∉ cs) : split separator cs = [cs] := by
  rw [split_eq_splitOn]
  exact List.splitOnP_eq_singleton fun c hc => beq_false_of_ne (ne_of_mem_of_not_mem hc h)

theorem split_ne_nil (separator : Char) (cs : List Char) : split separator cs ≠ [] := by
  rw [split_eq_splitOn]
  exact List.splitOnP_ne_nil _ cs

theorem two_le_length_split {separator : Char} : ∀ {cs : List Char}, separator ∈ cs → 2 ≤ (split separator cs).length
  | c :: cs, h => by
    rw [split]
    split
    · have := List.length_pos_iff.mpr (split_ne_nil separator cs)
      rw [List.length_cons]
      omega
    · have hrest := two_le_length_split ((List.mem_cons.mp h).resolve_left (Ne.symm ‹_›))
      split
      · rename_i hnil
        exact absurd hnil (split_ne_nil separator cs)
      · rename_i hcons
        rwa [hcons] at hrest

theorem split_append {separator : Char} {cs : List Char} (h : separator ∉ cs) (rest : List Char) :
    split separator (cs ++ separator :: rest) = cs :: split separator rest := by
  rw [split_eq_splitOn, split_eq_splitOn]
  exact List.splitOnP_append_cons_of_forall_mem (fun c hc => beq_false_of_ne (ne_of_mem_of_not_mem hc h)) separator
    (beq_self_eq_true separator) rest

/-- Pieces that are put together with separators fall into these pieces. --/
theorem split_intercalate {separator : Char} {pieces : List (List Char)} (hne : pieces ≠ [])
    (h : ∀ piece ∈ pieces, separator ∉ piece) : split separator ([separator].intercalate pieces) = pieces := by
  rw [split_eq_splitOn]
  exact List.splitOn_intercalate separator h hne

/-- The pieces that a separator cuts are put together with it again. --/
theorem intercalate_split (separator : Char) (cs : List Char) : [separator].intercalate (split separator cs) = cs := by
  rw [split_eq_splitOn]
  exact List.intercalate_splitOn separator

end Digits

/-! ### Numeric values -/

namespace NumVal

theorem number?_of_codePoint {base : Nat} {digits : List Char} {v : UInt32} (h : codePoint base digits = .ok v) :
    Digits.number? base digits = some v.toNat := by
  unfold codePoint at h
  split at h
  · cases h
  · rename_i n hn
    split at h
    · rename_i hle
      cases h
      rw [hn, UInt32.toNat_ofNat_of_lt']
      exact Nat.lt_of_le_of_lt hle (by decide)
    · cases h

theorem numbers_of_codePoints {base : Nat} {pieces : List (List Char)} {values : List UInt32}
    (h : pieces.mapM (codePoint base) = .ok values) :
    pieces.mapM (Digits.number? base) = some (values.map UInt32.toNat) := by
  have hall := forall₂_of_mapM h
  clear h
  induction hall with
  | nil => rfl
  | cons hv _ ih =>
    rw [List.mapM_cons, number?_of_codePoint hv, ih]
    rfl

theorem eq_of_char {v : UInt32} {c : Char} (h : char v = .ok c) : c = Char.ofNat v.toNat := by
  unfold char at h
  split at h
  · rename_i hvalid
    cases h
    exact (Char.ofNat_toNat ⟨v, hvalid⟩).symm
  · cases h

theorem chars_eq {values : List UInt32} {chars : List Char} (h : values.mapM char = .ok chars) :
    chars = values.map fun v => Char.ofNat v.toNat := by
  have hall := forall₂_of_mapM h
  clear h
  induction hall with
  | nil => rfl
  | cons hc _ ih => rw [List.map_cons, ← eq_of_char hc, ← ih]

theorem literal_of_dotted {values : List UInt32} {n : Node} (h : dotted values = .ok n) :
    n = .literal (bytes (values.map UInt32.toNat)) false := by
  have hall : (values.map UInt32.toNat).all (· < 0x100) = values.all (· < byteLimit) := by
    rw [List.all_map]
    rfl
  unfold dotted at h
  rw [bytes, hall]
  split at h
  · rw [if_pos ‹_›]
    cases h
    rw [List.map_map]
    rfl
  · rw [if_neg ‹_›]
    obtain ⟨chars, hchars, h⟩ := bind_eq_ok.mp h
    cases h
    rw [chars_eq hchars, List.flatMap_map, List.flatMap_map]

theorem charRange_of_range {base : Nat} {first last : List Char} {n : Node} (h : range base first last = .ok n) :
    ∃ lo hi, n = .charRange lo hi ∧ Digits.number? base first = some lo.toNat ∧
      Digits.number? base last = some hi.toNat := by
  unfold range at h
  obtain ⟨lo, hlo, h⟩ := bind_eq_ok.mp h
  obtain ⟨hi, hhi, h⟩ := bind_eq_ok.mp h
  split at h
  · cases h
    exact ⟨lo, hi, rfl, number?_of_codePoint hlo, number?_of_codePoint hhi⟩
  · cases h

theorem digitsReader_eq (input : ByteArray) (base : Nat) (body : List Char) : digitsReader input base body =
    match (Digits.split '-' body).mapM (Digits.number? base) with
    | some [lo, hi] => Reader.value input lo hi
    | _ =>
      match (Digits.split '.' body).mapM (Digits.number? base) with
      | some [n] => Reader.value input n n
      | some ns => Reader.bytes input id (bytes ns)
      | none => Reader.never := by
  rewrite [digitsReader, Digits.split_eq_splitOn, Digits.split_eq_splitOn, Digits.number?_eq]
  rfl

/-- Without a dash there is no range. --/
theorem digitsReader_of_no_dash (input : ByteArray) (base : Nat) {body : List Char} (h : '-' ∉ body) :
    digitsReader input base body =
      match (Digits.split '.' body).mapM (Digits.number? base) with
      | some [n] => Reader.value input n n
      | some ns => Reader.bytes input id (bytes ns)
      | none => Reader.never := by
  rw [digitsReader_eq, Digits.split_of_not_mem h, List.mapM_cons]
  rcases Digits.number? base body with _ | n <;> rfl

/-- Values with dots between read as their literal. --/
theorem digitsReader_of_dots (input : ByteArray) {base : Nat} {body : List Char} {values : List UInt32}
    (hdash : '-' ∉ body) (hdot : '.' ∈ body) (h : (Digits.split '.' body).mapM (codePoint base) = .ok values) :
    digitsReader input base body = Reader.bytes input id (bytes (values.map UInt32.toNat)) := by
  have hmany : 2 ≤ (values.map UInt32.toNat).length := by
    rw [List.length_map, ← (forall₂_of_mapM h).length_eq]
    exact Digits.two_le_length_split hdot
  rw [digitsReader_of_no_dash input base hdash, numbers_of_codePoints h]
  split
  · -- There is a dot, so one value alone there is not.
    rename_i hone
    rw [Option.some.inj hone] at hmany
    exact absurd hmany (by simp)
  · rename_i hsome
    rw [← Option.some.inj hsome]
  · cases ‹some _ = none›

theorem digitsReader_of_value (input : ByteArray) {base : Nat} {body : List Char} {v : UInt32} (hdash : '-' ∉ body)
    (hdot : '.' ∉ body) (h : codePoint base body = .ok v) :
    digitsReader input base body = Reader.value input v.toNat v.toNat := by
  rw [digitsReader_of_no_dash input base hdash, Digits.split_of_not_mem hdot, List.mapM_cons, number?_of_codePoint h]
  rfl

/-- The node of a numeric value reads what the value does. --/
theorem leaf_of_node {text : String} {n : Node} (h : node text = .ok n) (input : ByteArray) :
    (∃ bs, n = .literal bs false ∧ reader input text = Reader.bytes input id bs) ∨
      ∃ lo hi, n = .charRange lo hi ∧ reader input text = Reader.value input lo.toNat hi.toNat := by
  unfold node at h
  split at h
  · rename_i head mark body htext
    split at h
    · cases h
    · rename_i base hbase
      have hread : reader input text = digitsReader input base body := by
        rw [reader, htext]
        dsimp only
        rw [← base?_eq, hbase]
      rw [hread]
      split at h
      · split at h
        · rename_i first last hsplit
          split at h
          · cases h
          · obtain ⟨lo, hi, rfl, hlo, hhi⟩ := charRange_of_range h
            rw [digitsReader_eq, hsplit, List.mapM_cons, List.mapM_cons, hlo, hhi]
            exact Or.inr ⟨lo, hi, rfl, rfl⟩
        · cases h
      · rename_i hdash
        have hdash : '-' ∉ body := by simpa using hdash
        split at h
        · rename_i hdot
          obtain ⟨values, hvalues, h⟩ := bind_eq_ok.mp h
          exact Or.inl ⟨_, literal_of_dotted h, digitsReader_of_dots input hdash (by simpa using hdot) hvalues⟩
        · rename_i hdot
          obtain ⟨v, hv, h⟩ := bind_eq_ok.mp h
          cases h
          exact Or.inr ⟨v, v, rfl, digitsReader_of_value input hdash (by simpa using hdot) hv⟩
  · cases h

end NumVal

/-! ### Repeats -/

namespace Repeat

theorem toNat_of_count {w : Word} {n : UInt32} (h : count w = .ok n) : n.toNat = number w := by
  unfold count at h
  split at h
  · rename_i k hk
    split at h
    · rename_i hlt
      cases h
      rw [number, ← Digits.number?_eq, hk, UInt32.toNat_ofNat_of_lt' hlt]
      rfl
    · cases h
  · cases h

theorem toNat_of_count? {w : Option Word} {n : Option UInt32} (h : count? w = .ok n) :
    n.map UInt32.toNat = w.map number := by
  cases w with
  | none =>
    cases h
    rfl
  | some w =>
    obtain ⟨k, hk, h⟩ := bind_eq_ok.mp h
    cases h
    exact congrArg some (toNat_of_count hk)

theorem isError_of_count {w : Word} {d : Diagnostic} (h : count w = .error d) : d.isError = true := by
  unfold count at h
  split at h
  · split at h
    · cases h
    · cases h
      rfl
  · cases h
    rfl

theorem isError_of_count? {w : Option Word} {d : Diagnostic} (h : count? w = .error d) : d.isError = true := by
  cases w with
  | none => cases h
  | some w =>
    obtain h | ⟨k, -, h⟩ := bind_eq_error.mp h
    · exact isError_of_count h
    · cases h

/-- Bounds that make no sense are told of as an error. --/
theorem isError_of_bounds {r : Repeat} {d : Diagnostic} (h : r.bounds = .error d) : d.isError = true := by
  unfold bounds at h
  obtain h | ⟨min, -, h⟩ := bind_eq_error.mp h
  · exact isError_of_count? h
  · obtain h | ⟨max, -, h⟩ := bind_eq_error.mp h
    · exact isError_of_count? h
    · extract_lets b at h
      split at h
      · split at h
        · cases h
          rfl
        · cases h
      · cases h

/-- The bounds that the numbers of a repeat make, in order or not. --/
def told (r : Repeat) (min max : Option UInt32) : Bounds :=
  match r.op with
  | .exact => ⟨min.getD 1, some (min.getD 1)⟩
  | .range | .list => ⟨min.getD 0, max⟩

theorem toNat_told {r : Repeat} {min max : Option UInt32} (hmin : count? r.min = .ok min) (hmax : count? r.max = .ok max) :
    (r.told min max).min.toNat = r.least ∧ (r.told min max).max.map UInt32.toNat = r.most := by
  rw [least, most, ← toNat_of_count? hmin, ← toNat_of_count? hmax, told]
  cases r.op with
  | exact => cases min <;> exact ⟨rfl, rfl⟩
  | range | list => cases min <;> exact ⟨rfl, rfl⟩

/-- A repeat has the bounds that its numbers make, if these are in order. --/
theorem bounds_eq_ok {r : Repeat} {b : Bounds} : r.bounds = .ok b ↔ ∃ min max, count? r.min = .ok min ∧
    count? r.max = .ok max ∧ r.told min max = b ∧ ∀ m ∈ b.max, b.min ≤ m := by
  unfold bounds
  constructor
  · intro h
    obtain ⟨min, hmin, h⟩ := bind_eq_ok.mp h
    obtain ⟨max, hmax, h⟩ := bind_eq_ok.mp h
    extract_lets c at h
    refine ⟨min, max, hmin, hmax, ?_⟩
    split at h
    · rename_i m hm
      split at h
      · cases h
      · rename_i hle
        have hb : c = b := Except.ok.inj h
        rw [← hb, hm]
        exact ⟨rfl, fun k hk => Option.some.inj hk ▸ UInt32.not_lt.mp hle⟩
    · rename_i hnone
      have hb : c = b := Except.ok.inj h
      rw [← hb, hnone]
      exact ⟨rfl, fun _ hk => by cases hk⟩
  · rintro ⟨min, max, hmin, hmax, hb, hle⟩
    rw [hmin, hmax, ok_bind, ok_bind]
    extract_lets c
    obtain rfl : c = b := hb
    split
    · exact if_neg (UInt32.not_lt.mpr (hle _ ‹_›))
    · rfl

/-- The bounds of a repeat are the numbers that it spells. --/
theorem bounds_eq {r : Repeat} {b : Bounds} (h : r.bounds = .ok b) :
    b.min.toNat = r.least ∧ b.max.map UInt32.toNat = r.most := by
  obtain ⟨min, max, hmin, hmax, rfl, -⟩ := bounds_eq_ok.mp h
  exact toNat_told hmin hmax

/-- The bounds of a repeat are in order. --/
theorem le_of_bounds {r : Repeat} {b : Bounds} (h : r.bounds = .ok b) : ∀ m ∈ b.max, b.min ≤ m := by
  obtain ⟨min, max, -, -, -, hle⟩ := bounds_eq_ok.mp h
  exact hle

end Repeat
end Abnf
