import Abnf.Proofs.Binary.Format

/-! Readers against the format. A reader gives a result just if it passes over bytes that spell it, and stops behind
    them (`readPattern_eq_ok`, `readRecords_eq_ok`). -/

namespace Abnf

namespace Binary

theorem Tag.ofByte?_eq_some {b : UInt8} {t : Tag} : Tag.ofByte? b = some t ↔ b = t.byte := by
  constructor
  · intro h
    unfold Tag.ofByte? at h
    repeat' split at h
    all_goals first | (cases h; assumption) | cases h
  · rintro rfl
    exact ofByte?_byte t

/-! ### Passing over bytes -/

namespace Cursor

/-- A cursor has passed over some bytes. --/
def Passes (c : Cursor) (bs : List UInt8) (c' : Cursor) : Prop := c.rest = bs ++ c'.rest ∧ c'.offset = c.offset + bs.length

variable {c c' : Cursor} {bs cs : List UInt8}

theorem passes_nil : c.Passes [] c' ↔ c = c' := by
  obtain ⟨offset, rest⟩ := c
  obtain ⟨offset', rest'⟩ := c'
  simp only [Passes, List.nil_append, List.length_nil, Nat.add_zero, mk.injEq]
  exact ⟨fun ⟨h₁, h₂⟩ => ⟨h₂.symm, h₁⟩, fun ⟨h₁, h₂⟩ => ⟨h₂, h₁.symm⟩⟩

theorem passes_append : c.Passes (bs ++ cs) c' ↔ ∃ mid, c.Passes bs mid ∧ mid.Passes cs c' := by
  constructor
  · rintro ⟨hrest, hoffset⟩
    rw [List.length_append, ← Nat.add_assoc] at hoffset
    exact ⟨⟨c.offset + bs.length, cs ++ c'.rest⟩, ⟨by rw [hrest, List.append_assoc], rfl⟩, rfl, hoffset⟩
  · rintro ⟨mid, ⟨hrest, hoffset⟩, hrest', hoffset'⟩
    refine ⟨by rw [hrest, hrest', List.append_assoc], ?_⟩
    rw [hoffset', hoffset, List.length_append, Nat.add_assoc]

theorem passes_cons {b : UInt8} : c.Passes (b :: bs) c' ↔ ∃ mid, c.Passes [b] mid ∧ mid.Passes bs c' := by
  rw [← List.singleton_append, passes_append]

theorem byte_eq_ok {b : UInt8} : c.byte = .ok (b, c') ↔ c.Passes [b] c' := by
  obtain ⟨offset, rest⟩ := c
  obtain ⟨offset', rest'⟩ := c'
  cases rest with
  | nil => simp [byte, Passes]
  | cons x rest =>
    simp only [byte, Passes, Except.ok.injEq, Prod.mk.injEq, mk.injEq, List.singleton_append, List.cons.injEq,
      List.length_singleton]
    exact ⟨fun ⟨h₁, h₂, h₃⟩ => ⟨⟨h₁, h₃⟩, h₂.symm⟩, fun ⟨⟨h₁, h₃⟩, h₂⟩ => ⟨h₁, h₂.symm, h₃⟩⟩

theorem word_eq_ok {w : UInt32} : c.word = .ok (w, c') ↔ c.Passes (Word.bytes w) c' := by
  constructor
  · intro h
    unfold word at h
    split at h
    · rename_i w' rest hread
      cases h
      exact ⟨Word.read?_eq_some.mp hread, rfl⟩
    · cases h
  · rintro ⟨hrest, hoffset⟩
    rw [word, Word.read?_eq_some.mpr hrest]
    dsimp only
    rw [Word.length_bytes] at hoffset
    rw [← hoffset]

theorem count_eq_ok {n : Nat} : c.count = .ok (n, c') ↔
    ∃ w, c.Passes (Word.bytes w) c' ∧ w.toNat = n ∧ n ≤ c'.rest.length := by
  rw [count, bind_eq_ok]
  constructor
  · rintro ⟨⟨w, mid⟩, hw, h⟩
    dsimp only at h
    split at h
    · cases h
      exact ⟨w, word_eq_ok.mp hw, rfl, by assumption⟩
    · cases h
  · rintro ⟨w, hw, rfl, hle⟩
    exact ⟨(w, c'), word_eq_ok.mpr hw, if_pos hle⟩

end Cursor

open Cursor

theorem StringView.getText_eq_ok {v : StringView} {id : UInt32} {s : String} :
    v.getText id = .ok s ↔ v.get id = .ok (Utf8.bytes s) := by
  rw [getText, bind_eq_ok]
  constructor
  · rintro ⟨bs, hbs, h⟩
    split at h
    · rename_i text htext
      cases h
      rw [← Utf8.text?_eq_some.mp htext]
      exact hbs
    · cases h
  · intro h
    exact ⟨_, h, by rw [Utf8.text?_bytes]⟩

/-! ### Trees -/

/-- Trees that are not too high are read just as they are spelled. --/
def ReadsTrees (v : StringView) (S : UInt32 → List UInt8 → Prop) (levels : Nat) : Prop :=
  ∀ (c c' : Cursor) (p : Pattern String), readPattern v levels c = .ok (p, c') ↔
    ∃ bs, c.Passes bs c' ∧ Encodes S p bs ∧ p.height ≤ levels

section
variable {v : StringView} {S : UInt32 → List UInt8 → Prop} {levels : Nat}

theorem readMany_eq_ok (ih : ReadsTrees v S levels) : ∀ {n : Nat} {c c' : Cursor} {ps : List (Pattern String)},
    readMany (readPattern v levels) n c = .ok (ps, c') ↔
      ∃ bs, c.Passes bs c' ∧ ps.length = n ∧ EncodesAll S ps bs ∧ Pattern.heights ps ≤ levels
  | 0, c, c', ps => by
    rw [readMany]
    constructor
    · intro h
      cases h
      exact ⟨[], passes_nil.mpr rfl, rfl, rfl, Nat.zero_le _⟩
    · rintro ⟨bs, hpass, hlen, hall, -⟩
      obtain rfl := List.length_eq_zero_iff.mp hlen
      obtain rfl := hall
      obtain rfl := passes_nil.mp hpass
      rfl
  | n + 1, c, c', ps => by
    rw [readMany, bind_eq_ok]
    constructor
    · rintro ⟨⟨p, mid⟩, hp, h⟩
      obtain ⟨⟨qs, last⟩, hqs, h⟩ := bind_eq_ok.mp h
      cases h
      obtain ⟨bs, hpass, henc, hheight⟩ := (ih _ _ _).mp hp
      obtain ⟨cs, hpass', hlen, hall, hheights⟩ := (readMany_eq_ok ih).mp hqs
      exact ⟨bs ++ cs, passes_append.mpr ⟨mid, hpass, hpass'⟩, congrArg (· + 1) hlen, ⟨bs, cs, rfl, henc, hall⟩,
        Nat.max_le.mpr ⟨hheight, hheights⟩⟩
    · rintro ⟨bs, hpass, hlen, hall, hheights⟩
      cases ps with
      | nil => cases hlen
      | cons p ps =>
        obtain ⟨item, items, rfl, henc, hall⟩ := hall
        obtain ⟨mid, hpass, hpass'⟩ := passes_append.mp hpass
        obtain ⟨hheight, hheights⟩ := Nat.max_le.mp hheights
        refine ⟨(p, mid), (ih _ _ _).mpr ⟨item, hpass, henc, hheight⟩, bind_eq_ok.mpr ⟨(ps, c'), ?_, rfl⟩⟩
        exact (readMany_eq_ok ih).mpr ⟨items, hpass', Nat.succ.inj hlen, hall, hheights⟩

/-- The number in front of trees cannot be more than there are bytes. --/
theorem readCounted_eq_ok (ih : ReadsTrees v S levels) {c c' : Cursor} {ps : List (Pattern String)} :
    (∃ n mid, c.count = .ok (n, mid) ∧ readMany (readPattern v levels) n mid = .ok (ps, c')) ↔
      ∃ n items, c.Passes (Word.bytes n ++ items) c' ∧ n.toNat = ps.length ∧ EncodesAll S ps items ∧
        Pattern.heights ps ≤ levels := by
  constructor
  · rintro ⟨_, mid, hn, hps⟩
    obtain ⟨n, hpass, rfl, -⟩ := count_eq_ok.mp hn
    obtain ⟨items, hpass', hlen, hall, hheights⟩ := (readMany_eq_ok ih).mp hps
    exact ⟨n, items, passes_append.mpr ⟨mid, hpass, hpass'⟩, hlen.symm, hall, hheights⟩
  · rintro ⟨n, items, hpass, hlen, hall, hheights⟩
    obtain ⟨mid, hpass, hpass'⟩ := passes_append.mp hpass
    refine ⟨n.toNat, mid, count_eq_ok.mpr ⟨n, hpass, rfl, ?_⟩,
      (readMany_eq_ok ih).mpr ⟨items, hpass', hlen.symm, hall, hheights⟩⟩
    calc n.toNat
      _ ≤ Pattern.sizes ps := hlen ▸ length_le_sizes ps
      _ ≤ items.length := hall.sizes_le
      _ ≤ mid.rest.length := by
        rw [hpass'.1, List.length_append]
        exact Nat.le_add_right _ _

theorem encodes_of_readPattern (hv : ∀ id bs, v.get id = .ok bs ↔ S id bs) (ih : ReadsTrees v S levels)
    {c c' : Cursor} {p : Pattern String} (h : readPattern v (levels + 1) c = .ok (p, c')) :
    ∃ bs, c.Passes bs c' ∧ Encodes S p bs ∧ p.height ≤ levels + 1 := by
  rw [readPattern] at h
  obtain ⟨⟨b, c₀⟩, hb, h⟩ := bind_eq_ok.mp h
  dsimp only at h
  cases ht : Tag.ofByte? b with
  | none =>
    rw [ht] at h
    cases h
  | some tag =>
    rw [ht] at h
    obtain rfl := Tag.ofByte?_eq_some.mp ht
    have hb := byte_eq_ok.mp hb
    cases tag with
    | literal =>
      obtain ⟨⟨flags, c₁⟩, hflags, h⟩ := bind_eq_ok.mp h
      obtain ⟨⟨id, c₂⟩, hid, h⟩ := bind_eq_ok.mp h
      obtain ⟨bs, hbs, h⟩ := bind_eq_ok.mp h
      cases h
      exact ⟨_, passes_cons.mpr ⟨_, hb, passes_cons.mpr ⟨_, byte_eq_ok.mp hflags, word_eq_ok.mp hid⟩⟩,
        ⟨flags, id, rfl, (hv id bs).mp hbs, rfl⟩, Nat.le_add_left 1 levels⟩
    | charRange =>
      obtain ⟨⟨lo, c₁⟩, hlo, h⟩ := bind_eq_ok.mp h
      obtain ⟨⟨hi, c₂⟩, hhi, h⟩ := bind_eq_ok.mp h
      cases h
      exact ⟨_, passes_cons.mpr ⟨_, hb, passes_append.mpr ⟨_, word_eq_ok.mp hlo, word_eq_ok.mp hhi⟩⟩, rfl,
        Nat.le_add_left 1 levels⟩
    | sequence | choice =>
      obtain ⟨⟨n, c₁⟩, hn, h⟩ := bind_eq_ok.mp h
      obtain ⟨⟨ps, c₂⟩, hps, h⟩ := bind_eq_ok.mp h
      cases h
      obtain ⟨n, items, hpass, hlen, hall, hheights⟩ := (readCounted_eq_ok ih).mp ⟨n, c₁, hn, hps⟩
      exact ⟨_, passes_cons.mpr ⟨_, hb, hpass⟩, ⟨n, items, rfl, hlen, hall⟩, Nat.succ_le_succ hheights⟩
    | repetition =>
      obtain ⟨⟨min, c₁⟩, hmin, h⟩ := bind_eq_ok.mp h
      obtain ⟨⟨max, c₂⟩, hmax, h⟩ := bind_eq_ok.mp h
      obtain ⟨⟨p, c₃⟩, hp, h⟩ := bind_eq_ok.mp h
      cases h
      obtain ⟨item, hpass, henc, hheight⟩ := (ih _ _ _).mp hp
      exact ⟨_, passes_cons.mpr ⟨_, hb, passes_append.mpr ⟨_, word_eq_ok.mp hmin,
        passes_append.mpr ⟨_, word_eq_ok.mp hmax, hpass⟩⟩⟩, ⟨max, item, rfl, rfl, henc⟩, Nat.succ_le_succ hheight⟩
    | ruleRef =>
      obtain ⟨⟨id, c₁⟩, hid, h⟩ := bind_eq_ok.mp h
      obtain ⟨name, hname, h⟩ := bind_eq_ok.mp h
      cases h
      have hbs := (hv id _).mp (StringView.getText_eq_ok.mp hname)
      exact ⟨_, passes_cons.mpr ⟨_, hb, word_eq_ok.mp hid⟩, ⟨id, rfl, hbs⟩, Nat.le_add_left 1 levels⟩
    | fold =>
      obtain ⟨⟨p, c₁⟩, hp, h⟩ := bind_eq_ok.mp h
      cases h
      obtain ⟨item, hpass, henc, hheight⟩ := (ih _ _ _).mp hp
      exact ⟨_, passes_cons.mpr ⟨_, hb, hpass⟩, ⟨item, rfl, henc⟩, Nat.succ_le_succ hheight⟩

theorem readPattern_of_encodes (hv : ∀ id bs, v.get id = .ok bs ↔ S id bs) (ih : ReadsTrees v S levels)
    {c c' : Cursor} {p : Pattern String} {bs : List UInt8} (hpass : c.Passes bs c') (henc : Encodes S p bs)
    (hheight : p.height ≤ levels + 1) : readPattern v (levels + 1) c = .ok (p, c') := by
  cases p with
  | literal bs ignoreCase =>
    obtain ⟨flags, id, rfl, hbs, rfl⟩ := henc
    obtain ⟨c₁, hb, hpass⟩ := passes_cons.mp hpass
    obtain ⟨c₂, hflags, hid⟩ := passes_cons.mp hpass
    simp only [readPattern, byte_eq_ok.mpr hb, ok_bind, ofByte?_byte, byte_eq_ok.mpr hflags, word_eq_ok.mpr hid,
      (hv id bs).mpr hbs]
    rfl
  | charRange lo hi =>
    obtain rfl := henc
    obtain ⟨c₁, hb, hpass⟩ := passes_cons.mp hpass
    obtain ⟨c₂, hlo, hhi⟩ := passes_append.mp hpass
    simp only [readPattern, byte_eq_ok.mpr hb, ok_bind, ofByte?_byte, word_eq_ok.mpr hlo, word_eq_ok.mpr hhi]
    rfl
  | sequence ps | choice ps =>
    obtain ⟨n, items, rfl, hlen, hall⟩ := henc
    obtain ⟨c₁, hb, hpass⟩ := passes_cons.mp hpass
    obtain ⟨n, c₂, hn, hps⟩ := (readCounted_eq_ok ih).mpr ⟨n, items, hpass, hlen, hall, Nat.le_of_succ_le_succ hheight⟩
    simp only [readPattern, byte_eq_ok.mpr hb, ok_bind, ofByte?_byte, hn, hps]
    rfl
  | repetition p min max =>
    obtain ⟨m, item, rfl, rfl, henc⟩ := henc
    obtain ⟨c₁, hb, hpass⟩ := passes_cons.mp hpass
    obtain ⟨c₂, hmin, hpass⟩ := passes_append.mp hpass
    obtain ⟨c₃, hmax, hpass⟩ := passes_append.mp hpass
    have hp := (ih c₃ c' p).mpr ⟨item, hpass, henc, Nat.le_of_succ_le_succ hheight⟩
    simp only [readPattern, byte_eq_ok.mpr hb, ok_bind, ofByte?_byte, word_eq_ok.mpr hmin, word_eq_ok.mpr hmax, hp]
    rfl
  | ruleRef name =>
    obtain ⟨id, rfl, hbs⟩ := henc
    obtain ⟨c₁, hb, hid⟩ := passes_cons.mp hpass
    have hname := StringView.getText_eq_ok.mpr ((hv id _).mpr hbs)
    simp only [readPattern, byte_eq_ok.mpr hb, ok_bind, ofByte?_byte, word_eq_ok.mpr hid, hname]
    rfl
  | fold p =>
    obtain ⟨item, rfl, henc⟩ := henc
    obtain ⟨c₁, hb, hpass⟩ := passes_cons.mp hpass
    have hp := (ih c₁ c' p).mpr ⟨item, hpass, henc, Nat.le_of_succ_le_succ hheight⟩
    simp only [readPattern, byte_eq_ok.mpr hb, ok_bind, ofByte?_byte, hp]
    rfl

/-- A tree is read where its spelling stands, if it is not too high. --/
theorem readPattern_eq_ok (hv : ∀ id bs, v.get id = .ok bs ↔ S id bs) : ∀ levels, ReadsTrees v S levels
  | 0, c, c', p => by
    rw [readPattern]
    refine ⟨nofun, fun ⟨_, _, _, hheight⟩ => ?_⟩
    exact absurd (height_pos p) (Nat.not_lt_of_le hheight)
  | levels + 1, c, c', p =>
    ⟨encodes_of_readPattern hv (readPattern_eq_ok hv levels),
      fun ⟨_, hpass, henc, hheight⟩ => readPattern_of_encodes hv (readPattern_eq_ok hv levels) hpass henc hheight⟩

/-! ### Records -/

theorem readRecord_eq_ok (hv : ∀ id bs, v.get id = .ok bs ↔ S id bs) {indexed : String} {c c' : Cursor}
    {rule : String × Pattern String} : readRecord v indexed c = .ok (rule, c') ↔
      ∃ id item, c.Passes (Word.bytes id ++ item) c' ∧ S id (Utf8.bytes rule.1) ∧ sameName rule.1 indexed = true ∧
        Encodes S rule.2 item ∧ rule.2.height ≤ maxDepth + 1 := by
  rw [readRecord]
  constructor
  · intro h
    obtain ⟨⟨id, c₁⟩, hid, h⟩ := bind_eq_ok.mp h
    obtain ⟨name, hname, h⟩ := bind_eq_ok.mp h
    split at h
    · rename_i hsame
      obtain ⟨⟨p, c₂⟩, hp, h⟩ := bind_eq_ok.mp h
      cases h
      obtain ⟨item, hpass, henc, hheight⟩ := (readPattern_eq_ok hv _ _ _ _).mp hp
      exact ⟨id, item, passes_append.mpr ⟨_, word_eq_ok.mp hid, hpass⟩,
        (hv id _).mp (StringView.getText_eq_ok.mp hname), hsame, henc, hheight⟩
    · cases h
  · rintro ⟨id, item, hpass, hname, hsame, henc, hheight⟩
    obtain ⟨c₁, hid, hpass⟩ := passes_append.mp hpass
    have hp := (readPattern_eq_ok hv _ _ _ _).mpr ⟨item, hpass, henc, hheight⟩
    simp only [word_eq_ok.mpr hid, ok_bind, StringView.getText_eq_ok.mpr ((hv id _).mpr hname), if_pos hsame, hp]
    rfl

/-- The records of rules are read where their spelling stands. --/
theorem readRecords_eq_ok (hv : ∀ id bs, v.get id = .ok bs ↔ S id bs) : ∀ {names : List String} {c c' : Cursor}
    {rules : List (String × Pattern String)}, readRecords v names c = .ok (rules, c') ↔
      ∃ bs, c.Passes bs c' ∧ Records.Spell S names rules bs
  | [], c, c', rules => by
    rw [readRecords]
    constructor
    · intro h
      cases h
      exact ⟨[], passes_nil.mpr rfl, rfl⟩
    · rintro ⟨bs, hpass, hspell⟩
      cases rules with
      | nil =>
        obtain rfl := hspell
        obtain rfl := passes_nil.mp hpass
        rfl
      | cons => exact hspell.elim
  | indexed :: names, c, c', rules => by
    rw [readRecords]
    constructor
    · intro h
      obtain ⟨⟨rule, c₁⟩, hrule, h⟩ := bind_eq_ok.mp h
      obtain ⟨⟨rules, c₂⟩, hrules, h⟩ := bind_eq_ok.mp h
      cases h
      obtain ⟨id, item, hpass, hname, hsame, henc, hheight⟩ := (readRecord_eq_ok hv).mp hrule
      obtain ⟨items, hpass', hspell⟩ := (readRecords_eq_ok hv).mp hrules
      refine ⟨_, passes_append.mpr ⟨c₁, hpass, hpass'⟩, id, item, items, ?_, hname, hsame, henc, hheight, hspell⟩
      rw [List.append_assoc]
    · rintro ⟨bs, hpass, hspell⟩
      cases rules with
      | nil => exact hspell.elim
      | cons rule rules =>
        obtain ⟨id, item, items, rfl, hname, hsame, henc, hheight, hspell⟩ := hspell
        rw [← List.append_assoc] at hpass
        obtain ⟨c₁, hpass, hpass'⟩ := passes_append.mp hpass
        have hrule := (readRecord_eq_ok hv).mpr ⟨id, item, hpass, hname, hsame, henc, hheight⟩
        simp only [hrule, ok_bind, (readRecords_eq_ok hv).mpr ⟨items, hpass', hspell⟩]
        rfl

end

end Binary
end Abnf
