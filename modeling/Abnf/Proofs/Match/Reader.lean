import Abnf.Grammar.Pattern
import Abnf.Text.Byte
import Mathlib.Data.List.Forall2

/-! Readers: what is read from a position on, as a function. They say what matching means without nodes, rules or
    trails: terminal readers look at the input, the others are put together from readers of their parts.
    A pattern is read by putting together the readers that it is made of (`Pattern.reader`).
    A reader may come to no end; the order `Reader.Le` says that one reader comes to all the ends that another
    comes to, and every way of putting readers together respects it. -/

namespace Abnf

/-- A byte as a character of its own, in its small form if that is a letter of ASCII. --/
def Byte.small (b : UInt8) : UInt8 := (Char.ofUInt8 b).toLower.toUInt8

/-- What the matcher takes for lower case is the small form. --/
theorem Byte.lower_eq_small : lower = small := by
  have hall : ∀ n < 256, lower (UInt8.ofNat n) = small (UInt8.ofNat n) := by decide +kernel
  funext b
  rw [← UInt8.ofNat_toNat (x := b)]
  exact hall b.toNat b.toNat_lt

/-- Where reading from a position on ends, if it succeeds; none if it does not come to an end. --/
abbrev Reader := Nat → Option (Option Nat)

namespace Reader

/-- Reading that comes to no end. --/
def never : Reader := fun _ => none

/-! ### Terminals -/

section
variable (input : ByteArray)

/-- These bytes, as far as `fold` tells bytes apart. --/
def bytes (fold : UInt8 → UInt8) (bs : List UInt8) : Reader := fun pos =>
  some (if pos ≤ input.size ∧ ((input.data.toList.drop pos).take bs.length).map fold = bs.map fold then
    some (pos + bs.length) else none)

/-- Nothing. --/
def empty : Reader := bytes input id []

/-- A text; ASCII letters in any case unless it is `exact`. --/
def text (exact : Bool) (s : String) : Reader :=
  bytes input (if exact then id else Byte.small) s.toByteArray.data.toList

/-- A value between two bounds: one raw byte if the bounds are below 0x100, else one character in UTF-8. --/
def value (lo hi : Nat) : Reader := fun pos =>
  some (if hi < 0x100 then
    (input[pos]?).bind fun b => if lo ≤ b.toNat ∧ b.toNat ≤ hi then some (pos + 1) else none
  else
    (input.utf8DecodeChar? pos).bind fun c => if lo ≤ c.toNat ∧ c.toNat ≤ hi then some (pos + c.utf8Size) else none)

end

/-! ### Readers made of others -/

/-- One after the other. --/
def inOrder : List Reader → Reader
  | [], pos => some (some pos)
  | f :: fs, pos =>
    match f pos with
    | some (some stop) => inOrder fs stop
    | result => result

/-- The first that reads something, else the first that reads nothing and succeeds. --/
def firstOf : List Reader → Reader
  | [], _ => some none
  | f :: fs, pos =>
    match f pos with
    | some (some stop) =>
      if pos < stop then some (some stop) else (firstOf fs pos).map fun later => some (later.getD stop)
    | some none => firstOf fs pos
    | none => none

/-- What a repetition comes to that ends after `count` rounds. --/
def settle (min count : Nat) : Reader := fun pos => some (if count < min then none else some pos)

/-- Rounds of a repetition after `count` of them, with `left` bytes left to read. A round that reads nothing
    is the last one, and stands for all that are missing. --/
def rounds (f : Reader) (min : Nat) (max : Option Nat) (left count : Nat) : Reader := fun pos =>
  if max.all (count < ·) then
    match f pos with
    | some (some stop) =>
      match left with
      | 0 => some (some stop)
      | left + 1 => if stop = pos then some (some stop) else rounds f min max left (count + 1) stop
    | some none => settle min count pos
    | none => none
  else settle min count pos

/-- As often as it goes, between two bounds, in an input of `size` bytes. --/
def times (size min : Nat) (max : Option Nat) (f : Reader) : Reader := fun pos =>
  rounds f min max (size - pos) 0 pos

end Reader

namespace Pattern

variable {ρ : Type} (input : ByteArray)

mutual

/-- What a pattern reads, given what the rules that it refers to read. --/
def reader (rules : ρ → Reader) : Pattern ρ → Reader
  | literal bs ignoreCase => Reader.bytes input (if ignoreCase then Byte.small else id) bs
  | charRange lo hi => Reader.value input lo.toNat hi.toNat
  | sequence ps => Reader.inOrder (readers rules ps)
  | choice ps => Reader.firstOf (readers rules ps)
  | repetition p min max => Reader.times input.size min.toNat (max.map UInt32.toNat) (reader rules p)
  | ruleRef r => rules r
  | fold p => reader rules p

def readers (rules : ρ → Reader) : List (Pattern ρ) → List Reader
  | [] => []
  | p :: ps => reader rules p :: readers rules ps

end

theorem readers_append (rules : ρ → Reader) : ∀ ps qs : List (Pattern ρ),
    readers input rules (ps ++ qs) = readers input rules ps ++ readers input rules qs
  | [], _ => rfl
  | p :: ps, qs => congrArg (reader input rules p :: ·) (readers_append rules ps qs)

end Pattern

namespace Reader

/-! ### Laws -/

/-- A single alternative is what it is. --/
theorem firstOf_singleton (f : Reader) : firstOf [f] = f := by
  funext pos
  rw [firstOf]
  rcases f pos with _ | _ | stop
  · rfl
  · rfl
  · by_cases h : pos < stop
    · exact if_pos h
    · exact if_neg h

theorem inOrder_singleton (f : Reader) : inOrder [f] = f := by
  funext pos
  rw [inOrder]
  rcases f pos with _ | _ | stop <;> rfl

/-- It makes no difference whether the first alternatives are a choice of their own. --/
theorem firstOf_append (fs hs : List Reader) : firstOf (fs ++ hs) = firstOf (firstOf fs :: hs) := by
  funext pos
  induction fs with
  | nil => rfl
  | cons g fs ih =>
    rw [firstOf] at ih
    rw [List.cons_append, firstOf, firstOf, firstOf, ih]
    rcases g pos with _ | _ | stop
    · rfl
    · rfl
    · by_cases h : pos < stop
      · simp [h]
      · simp only [h, if_false]
        rcases firstOf fs pos with _ | _ | later
        · rfl
        · simp [h]
        · -- Both sides end where the earlier alternatives read something, or ask the later ones.
          by_cases hl : pos < later
          · simp [hl]
          · simp [hl, Function.comp_def]

/-- Once and no more is what it is. --/
theorem times_one (size : Nat) (f : Reader) : times size 1 (some 1) f = f := by
  funext pos
  rw [times, rounds]
  rcases hf : f pos with _ | _ | stop
  · rfl
  · rfl
  · cases size - pos with
    | zero => rfl
    | succ left =>
      dsimp only
      by_cases h : stop = pos
      · simp [h]
      · simp [h, rounds, settle]

/-! ### Order -/

/-- A reader comes to all the ends that another comes to. --/
def Le (f h : Reader) : Prop := ∀ pos result, f pos = some result → h pos = some result

theorem Le.refl (f : Reader) : f.Le f := fun _ _ h => h

theorem Le.trans {f g h : Reader} (hfg : f.Le g) (hgh : g.Le h) : f.Le h :=
  fun pos result hf => hgh pos result (hfg pos result hf)

theorem never_le (f : Reader) : never.Le f := nofun

theorem inOrder_le {fs hs : List Reader} (h : List.Forall₂ Le fs hs) : (inOrder fs).Le (inOrder hs) := by
  induction h with
  | nil => exact Le.refl _
  | @cons f g fs hs hfg _ ih =>
    intro pos result hr
    rw [inOrder] at hr ⊢
    rcases hf : f pos with _ | _ | stop
    · rw [hf] at hr
      cases hr
    · rw [hf] at hr
      rw [hfg pos none hf]
      exact hr
    · rw [hf] at hr
      rw [hfg pos (some stop) hf]
      exact ih stop result hr

theorem firstOf_le {fs hs : List Reader} (h : List.Forall₂ Le fs hs) : (firstOf fs).Le (firstOf hs) := by
  induction h with
  | nil => exact Le.refl _
  | @cons f g fs hs hfg _ ih =>
    intro pos result hr
    rw [firstOf] at hr ⊢
    rcases hf : f pos with _ | _ | stop
    · rw [hf] at hr
      cases hr
    · rw [hf] at hr
      rw [hfg pos none hf]
      exact ih pos result hr
    · rw [hf] at hr
      rw [hfg pos (some stop) hf]
      dsimp only at hr ⊢
      split at hr
      · rw [if_pos ‹_›]
        exact hr
      · rw [if_neg ‹_›]
        obtain ⟨later, hl, rfl⟩ := Option.map_eq_some_iff.mp hr
        rw [ih pos later hl]
        rfl

theorem rounds_le {f g : Reader} (hfg : f.Le g) (min : Nat) (max : Option Nat) : ∀ left count,
    (rounds f min max left count).Le (rounds g min max left count)
  | left, count, pos, result, hr => by
    rw [rounds] at hr ⊢
    split at hr
    · rw [if_pos ‹_›]
      rcases hf : f pos with _ | _ | stop
      · rw [hf] at hr
        cases hr
      · rw [hf] at hr
        rw [hfg pos none hf]
        exact hr
      · rw [hf] at hr
        rw [hfg pos (some stop) hf]
        cases left with
        | zero => exact hr
        | succ left =>
          dsimp only at hr ⊢
          split at hr
          · rw [if_pos ‹_›]
            exact hr
          · rw [if_neg ‹_›]
            exact rounds_le hfg min max left (count + 1) stop result hr
    · rw [if_neg ‹_›]
      exact hr

theorem times_le {f g : Reader} (hfg : f.Le g) (size min : Nat) (max : Option Nat) :
    (times size min max f).Le (times size min max g) :=
  fun pos => rounds_le hfg min max (size - pos) 0 pos

end Reader
end Abnf
