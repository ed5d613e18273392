import Abnf.Proofs.Compile.Values
import Mathlib.Data.Nat.Digits.Defs

/-! What a document has to look like to be compiled, said of its definitions alone (`CompileOptions.Accepts`): which
    numeric values and repeats make sense, and how definitions, further alternatives, the base and references have to
    fit together. The readers of values and of bounds accept just what makes sense (`NumVal.node_iff`,
    `Repeat.bounds_iff`). -/

namespace Abnf

open List (Forall₂)

/-! ### Numbers -/

namespace Digits

/-- Digits of a base, one of them at least, that spell a number. --/
def Spells (base : Nat) (cs : List Char) (n : Nat) : Prop :=
  cs ≠ [] ∧ ∃ ds, Forall₂ (fun c d => Notation.digit? base c = some d) cs ds ∧ n = Nat.ofDigits base ds.reverse

theorem mapM_digit?_iff {base : Nat} : ∀ {cs : List Char} {ds : List Nat},
    cs.mapM (Notation.digit? base) = some ds ↔ Forall₂ (fun c d => Notation.digit? base c = some d) cs ds
  | [], ds => by
    rw [List.forall₂_nil_left_iff]
    exact ⟨fun h => (Option.some.inj h).symm, fun h => congrArg some h.symm⟩
  | c :: cs, ds => by
    rw [List.mapM_cons, List.forall₂_cons_left_iff]
    constructor
    · intro h
      obtain ⟨d, hd, h⟩ := Option.bind_eq_some_iff.mp h
      obtain ⟨ds', hds, h⟩ := Option.bind_eq_some_iff.mp h
      exact ⟨d, ds', hd, mapM_digit?_iff.mp hds, (Option.some.inj h).symm⟩
    · rintro ⟨d, ds', hd, hds, rfl⟩
      rw [hd, mapM_digit?_iff.mpr hds]
      rfl

theorem number?_iff {base : Nat} {cs : List Char} {n : Nat} : number? base cs = some n ↔ Spells base cs n := by
  rw [number?_eq, Notation.number?, Spells]
  split
  · rename_i hnil
    exact iff_of_false (Option.some_ne_none n).symm fun h => h.1 hnil
  · rename_i hne
    simp only [Option.map_eq_some_iff, mapM_digit?_iff, eq_comm (a := n)]
    exact (and_iff_right hne).symm

theorem Spells.not_mem {base n : Nat} {cs : List Char} (h : Spells base cs n) {c : Char}
    (hc : Notation.digit? base c = none) : c ∉ cs := by
  obtain ⟨-, ds, hds, -⟩ := h
  intro hmem
  induction hds with
  | nil => cases hmem
  | cons hd _ ih =>
    rcases List.mem_cons.mp hmem with rfl | hmem
    · rw [hc] at hd
      cases hd
    · exact ih hmem

end Digits

/-! ### Numeric values -/

namespace NumVal

/-- Digits spell a number no greater than the last code point. --/
def Point (base : Nat) (cs : List Char) (n : Nat) : Prop := Digits.Spells base cs n ∧ n ≤ 0x10FFFF

/-- What stands behind the letter of a base: one value, a range of them, or several with dots between, none of which is a
    surrogate. --/
inductive Body (base : Nat) : List Char → Prop where
  | single {digits : List Char} {n : Nat} (h : Point base digits n) : Body base digits
  | range {first last : List Char} {lo hi : Nat} (hlo : Point base first lo) (hhi : Point base last hi) (hle : lo ≤ hi) :
      Body base (first ++ '-' :: last)
  | sequence {pieces : List (List Char)} {values : List Nat} (hmany : 2 ≤ pieces.length)
      (h : Forall₂ (Point base) pieces values) (hchars : ∀ n ∈ values, n < 0xD800 ∨ 0xDFFF < n) :
      Body base (['.'].intercalate pieces)

/-- The text of a numeric value makes sense. --/
def Valid (text : String) : Prop :=
  ∃ sign mark base body, text.toList = sign :: mark :: body ∧ Notation.radix? mark = some base ∧ Body base body

theorem codePoint_iff {base : Nat} {cs : List Char} {v : UInt32} : codePoint base cs = .ok v ↔ Point base cs v.toNat := by
  rw [Point, ← Digits.number?_iff, codePoint]
  have hmax : maxCodePoint.toNat = 0x10FFFF := rfl
  cases Digits.number? base cs with
  | none => exact iff_of_false nofun fun h => by cases h.1
  | some n =>
    dsimp only
    rw [Option.some_inj, hmax]
    split
    · rename_i hle
      have hlt : n < UInt32.size := Nat.lt_of_le_of_lt hle (by decide)
      rw [Except.ok.injEq, ← UInt32.toNat_inj, UInt32.toNat_ofNat_of_lt' hlt]
      exact ⟨fun h => ⟨h, h ▸ hle⟩, And.left⟩
    · rename_i hgt
      exact iff_of_false nofun fun h => hgt (h.1 ▸ h.2)

theorem exists_codePoint {base n : Nat} {cs : List Char} (h : Point base cs n) :
    ∃ v : UInt32, codePoint base cs = .ok v ∧ v.toNat = n := by
  have hlt : n < UInt32.size := Nat.lt_of_le_of_lt h.2 (by decide)
  have hv : (UInt32.ofNat n).toNat = n := UInt32.toNat_ofNat_of_lt' hlt
  exact ⟨.ofNat n, codePoint_iff.mpr (hv.symm ▸ h), hv⟩

theorem exists_codePoints {base : Nat} {pieces : List (List Char)} {values : List Nat}
    (h : Forall₂ (Point base) pieces values) :
    ∃ vs : List UInt32, pieces.mapM (codePoint base) = .ok vs ∧ vs.map UInt32.toNat = values := by
  induction h with
  | nil => exact ⟨[], rfl, rfl⟩
  | cons hn _ ih =>
    obtain ⟨v, hv, hvalue⟩ := exists_codePoint hn
    obtain ⟨vs, hvs, hvalues⟩ := ih
    refine ⟨v :: vs, ?_, by rw [List.map_cons, hvalue, hvalues]⟩
    rw [List.mapM_cons, hv, ok_bind, hvs]
    rfl

/-- Of the code points only surrogates are no characters. --/
theorem isValidChar_iff {v : UInt32} (h : v.toNat ≤ 0x10FFFF) :
    v.isValidChar ↔ v.toNat < 0xD800 ∨ 0xDFFF < v.toNat := by
  change v.toNat < 0xD800 ∨ (0xDFFF < v.toNat ∧ v.toNat < 0x110000) ↔ _
  omega

theorem exists_char_iff {v : UInt32} (h : v.toNat ≤ 0x10FFFF) :
    (∃ c, char v = .ok c) ↔ v.toNat < 0xD800 ∨ 0xDFFF < v.toNat := by
  rw [char, ← isValidChar_iff h]
  split
  · exact iff_of_true ⟨_, rfl⟩ ‹_›
  · exact iff_of_false nofun ‹_›

theorem exists_dotted_iff {values : List UInt32} (h : ∀ v ∈ values, v.toNat ≤ 0x10FFFF) :
    (∃ n, dotted values = .ok n) ↔ ∀ v ∈ values, v.toNat < 0xD800 ∨ 0xDFFF < v.toNat := by
  rw [dotted]
  split
  · rename_i hall
    refine iff_of_true ⟨_, rfl⟩ fun v hv => .inl ?_
    have hlt : v.toNat < 0x100 := UInt32.lt_iff_toNat_lt.mp (of_decide_eq_true (List.all_eq_true.mp hall v hv))
    omega
  · rw [← forall₂_congr fun v hv => exists_char_iff (h v hv), ← exists_mapM_iff]
    constructor
    · rintro ⟨n, hn⟩
      obtain ⟨chars, hchars, -⟩ := bind_eq_ok.mp hn
      exact ⟨chars, hchars⟩
    · rintro ⟨chars, hchars⟩
      exact ⟨_, bind_eq_ok.mpr ⟨chars, hchars, rfl⟩⟩

theorem exists_range_iff {base : Nat} {first last : List Char} : (∃ n, range base first last = .ok n) ↔
    ∃ lo hi, Point base first lo ∧ Point base last hi ∧ lo ≤ hi := by
  constructor
  · rintro ⟨n, hn⟩
    obtain ⟨lo, hlo, hn⟩ := bind_eq_ok.mp hn
    obtain ⟨hi, hhi, hn⟩ := bind_eq_ok.mp hn
    split at hn
    · exact ⟨_, _, codePoint_iff.mp hlo, codePoint_iff.mp hhi, UInt32.le_iff_toNat_le.mp ‹_›⟩
    · cases hn
  · rintro ⟨lo, hi, hlo, hhi, hle⟩
    obtain ⟨l, hl, rfl⟩ := exists_codePoint hlo
    obtain ⟨u, hu, rfl⟩ := exists_codePoint hhi
    refine ⟨.charRange l u, bind_eq_ok.mpr ⟨l, hl, bind_eq_ok.mpr ⟨u, hu, ?_⟩⟩⟩
    rw [if_pos (UInt32.le_iff_toNat_le.mpr hle)]

theorem Point.not_dash {base n : Nat} {cs : List Char} (h : Point base cs n) : '-' ∉ cs := h.1.not_mem rfl

theorem Point.not_dot {base n : Nat} {cs : List Char} (h : Point base cs n) : '.' ∉ cs := h.1.not_mem rfl

theorem le_of_points {base : Nat} {pieces : List (List Char)} {values : List Nat}
    (h : Forall₂ (Point base) pieces values) : ∀ n ∈ values, n ≤ 0x10FFFF := by
  induction h with
  | nil => exact List.forall_mem_nil _
  | cons hn _ ih => exact List.forall_mem_cons.mpr ⟨hn.2, ih⟩

/-- No sign stands among the digits. --/
theorem plain_of_points {base : Nat} {pieces : List (List Char)} {values : List Nat}
    (h : Forall₂ (Point base) pieces values) : ∀ piece ∈ pieces, '-' ∉ piece ∧ '.' ∉ piece :=
  (List.forall₂_and_left pieces values).mp (h.imp fun _ _ hn => ⟨⟨hn.not_dash, hn.not_dot⟩, hn⟩) |>.1

theorem not_mem_intercalate {c separator : Char} (hne : c ≠ separator) : ∀ {pieces : List (List Char)},
    (∀ piece ∈ pieces, c ∉ piece) → c ∉ [separator].intercalate pieces
  | [], _ => List.not_mem_nil
  | [piece], h => by
    rw [List.intercalate_singleton]
    exact h piece List.mem_cons_self
  | piece :: next :: pieces, h => by
    obtain ⟨hpiece, hpieces⟩ := List.forall_mem_cons.mp h
    rw [List.intercalate_cons_cons]
    simp only [List.mem_append, List.mem_singleton, not_or]
    exact ⟨⟨hpiece, hne⟩, not_mem_intercalate hne hpieces⟩

theorem mem_intercalate {separator : Char} : ∀ {pieces : List (List Char)}, 2 ≤ pieces.length →
    separator ∈ [separator].intercalate pieces
  | piece :: next :: pieces, _ => by
    rw [List.intercalate_cons_cons]
    simp

theorem valid_of_node {text : String} {n : Node} (h : node text = .ok n) : Valid text := by
  unfold node at h
  split at h
  · rename_i sign mark body htext
    split at h
    · cases h
    · rename_i base hbase
      refine ⟨sign, mark, base, body, htext, (base?_eq mark).symm.trans hbase, ?_⟩
      split at h
      · split at h
        · rename_i lo hi hsplit
          split at h
          · cases h
          · obtain ⟨l, u, hl, hu, hle⟩ := exists_range_iff.mp ⟨n, h⟩
            have hbody := Digits.intercalate_split '-' body
            rw [hsplit, List.intercalate_cons_cons, List.intercalate_singleton, List.append_assoc,
              List.singleton_append] at hbody
            rw [← hbody]
            exact .range hl hu hle
        · cases h
      · split at h
        · rename_i hdot
          obtain ⟨values, hvalues, h⟩ := bind_eq_ok.mp h
          have hpoints : Forall₂ (Point base) (Digits.split '.' body) (values.map UInt32.toNat) := by
            rw [List.forall₂_map_right_iff]
            exact (forall₂_of_mapM hvalues).imp fun _ _ => codePoint_iff.mp
          have hchars := (exists_dotted_iff (List.forall_mem_map.mp (le_of_points hpoints))).mp ⟨n, h⟩
          rw [← Digits.intercalate_split '.' body]
          exact .sequence (Digits.two_le_length_split (by simpa using hdot)) hpoints (List.forall_mem_map.mpr hchars)
        · obtain ⟨v, hv, -⟩ := bind_eq_ok.mp h
          exact .single (codePoint_iff.mp hv)
  · cases h

theorem exists_node {text : String} (h : Valid text) : ∃ n, node text = .ok n := by
  obtain ⟨sign, mark, base, body, htext, hbase, hbody⟩ := h
  rw [node, htext]
  dsimp only
  rw [base?_eq, hbase]
  dsimp only
  cases hbody with
  | single hn =>
    obtain ⟨v, hv, -⟩ := exists_codePoint hn
    rw [if_neg (by simpa using hn.not_dash), if_neg (by simpa using hn.not_dot), hv]
    exact ⟨_, rfl⟩
  | @range first last lo hi hlo hhi hle =>
    obtain ⟨n, hn⟩ := exists_range_iff.mpr ⟨lo, hi, hlo, hhi, hle⟩
    rw [if_pos (by simp), Digits.split_append hlo.not_dash, Digits.split_of_not_mem hhi.not_dash]
    dsimp only
    rw [if_neg (by simp [hlo.not_dot, hhi.not_dot]), hn]
    exact ⟨n, rfl⟩
  | @sequence pieces values hmany hpoints hchars =>
    obtain ⟨vs, hvs, rfl⟩ := exists_codePoints hpoints
    have hpiece := plain_of_points hpoints
    have hdash : '-' ∉ ['.'].intercalate pieces := not_mem_intercalate (by decide) fun piece hmem => (hpiece piece hmem).1
    obtain ⟨n, hn⟩ := (exists_dotted_iff (List.forall_mem_map.mp (le_of_points hpoints))).mpr
      (List.forall_mem_map.mp hchars)
    rw [if_neg (by simpa using hdash), if_pos (by simpa using mem_intercalate hmany),
      Digits.split_intercalate (List.ne_nil_of_length_pos (by omega)) fun piece hmem => (hpiece piece hmem).2, hvs, ok_bind]
    exact ⟨n, hn⟩

/-- Numeric values have a node just if they make sense. --/
theorem node_iff {text : String} : (∃ n, node text = .ok n) ↔ Valid text :=
  ⟨fun ⟨_, h⟩ => valid_of_node h, exists_node⟩

end NumVal

/-! ### Repeats -/

namespace Repeat

/-- The numbers of a repeat fit in 32 bits, and as many elements are allowed at most as there have to be. --/
structure Valid (r : Repeat) : Prop where
  fits : ∀ w, r.min = some w ∨ r.max = some w → ∃ n < 2 ^ 32, Digits.Spells 10 w.text.toList n
  ordered : ∀ m ∈ r.most, r.least ≤ m

theorem exists_count_iff {w : Word} : (∃ n, count w = .ok n) ↔ ∃ n < 2 ^ 32, Digits.Spells 10 w.text.toList n := by
  simp only [count, ← Digits.number?_iff]
  cases Digits.number? 10 w.text.toList with
  | none => simp
  | some n =>
    dsimp only
    split
    · exact iff_of_true ⟨_, rfl⟩ ⟨n, ‹_›, rfl⟩
    · refine iff_of_false nofun ?_
      rintro ⟨_, hlt, ⟨⟩⟩
      exact absurd hlt ‹_›

theorem exists_count?_iff {w : Option Word} :
    (∃ n, count? w = .ok n) ↔ ∀ x, w = some x → ∃ n < 2 ^ 32, Digits.Spells 10 x.text.toList n := by
  cases w with
  | none => exact iff_of_true ⟨_, rfl⟩ nofun
  | some w =>
    have hcount : (∃ n, count? (some w) = .ok n) ↔ ∃ n, count w = .ok n := by
      constructor
      · rintro ⟨n, h⟩
        obtain ⟨k, hk, -⟩ := bind_eq_ok.mp h
        exact ⟨k, hk⟩
      · rintro ⟨k, hk⟩
        exact ⟨some k, bind_eq_ok.mpr ⟨k, hk, rfl⟩⟩
    rw [hcount, exists_count_iff]
    simp only [Option.some.injEq, forall_eq']

/-- Repeats have bounds just if they make sense. --/
theorem bounds_iff {r : Repeat} : (∃ b, r.bounds = .ok b) ↔ r.Valid := by
  constructor
  · rintro ⟨b, hb⟩
    obtain ⟨min, max, hmin, hmax, rfl, hle⟩ := bounds_eq_ok.mp hb
    obtain ⟨hleast, hmost⟩ := toNat_told hmin hmax
    refine ⟨?_, fun m hm => ?_⟩
    · rintro w (hw | hw)
      · exact exists_count?_iff.mp ⟨min, hmin⟩ w hw
      · exact exists_count?_iff.mp ⟨max, hmax⟩ w hw
    · rw [← hmost] at hm
      obtain ⟨k, hk, rfl⟩ := Option.map_eq_some_iff.mp hm
      exact hleast ▸ UInt32.le_iff_toNat_le.mp (hle k hk)
  · rintro ⟨hfits, hordered⟩
    obtain ⟨min, hmin⟩ := exists_count?_iff.mpr fun w hw => hfits w (.inl hw)
    obtain ⟨max, hmax⟩ := exists_count?_iff.mpr fun w hw => hfits w (.inr hw)
    obtain ⟨hleast, hmost⟩ := toNat_told hmin hmax
    refine ⟨_, bounds_eq_ok.mpr ⟨min, max, hmin, hmax, rfl, fun m hm => UInt32.le_iff_toNat_le.mpr ?_⟩⟩
    have hmem : r.most = some m.toNat := by rw [← hmost, hm, Option.map_some]
    exact hleast ▸ hordered m.toNat hmem

end Repeat

/-! ### Documents -/

namespace Expr

mutual

/-- The expressions that an expression is made of, and that itself behind them. --/
def parts : Expr → List Expr
  | alternation span es => partsAll es ++ [alternation span es]
  | concatenation span es => partsAll es ++ [concatenation span es]
  | repetition span count (some e) => parts e ++ [repetition span count (some e)]
  | group span (some e) => parts e ++ [group span (some e)]
  | optional span (some e) => parts e ++ [optional span (some e)]
  | e => [e]

def partsAll : List Expr → List Expr
  | [] => []
  | e :: es => parts e ++ partsAll es

end

end Expr

/-- An expression stands in the body of a definition. --/
def Definition.Contains (ds : List Definition) (e : Expr) : Prop :=
  ∃ incremental name, ∃ body ∈ bodiesOf incremental name ds, e ∈ body.parts

/-- Definitions that a document may be made of. --/
structure CompileOptions.Accepts (o : CompileOptions) (ds : List Definition) : Prop where
  prose : ∀ w, ¬Definition.Contains ds (.prose w)
  values : ∀ w, Definition.Contains ds (.num w) → NumVal.Valid w.text
  /-- With nothing behind it, a repeat is a mistake in the text already. --/
  repeats : ∀ span r e, Definition.Contains ds (.repetition span (some r) (some e)) → r.Valid
  /-- No name is defined twice. --/
  once : ∀ name, (Definition.bodiesOf false name ds).length ≤ 1
  /-- Further alternatives follow a definition of their name or, if there is none at all, add to one of the base. --/
  follows : ∀ before d after, ds = before ++ d :: after → ∀ name, (d.bodyOf true name).isSome →
    Definition.bodiesOf false name before ≠ [] ∨ Definition.bodiesOf false name ds = [] ∧ o.baseDefines name = true
  overrides : o.rejectBaseOverrides = true → ∀ name, Definition.bodiesOf false name ds ≠ [] → o.baseDefines name = false
  references : o.allowIncomplete = false → ∀ w, Definition.Contains ds (.ref w) →
    Definition.bodiesOf false w.text ds ≠ [] ∨ o.baseDefines w.text = true

end Abnf
