import Abnf.Proofs.Except
import Mathlib.Algebra.Group.Nat.Defs

/-! Computations in which every step is checked. A step that could go wrong on a machine, such as an index out of
    bounds or a number that outgrows its word, stops the computation with a fault; a fault is none of the
    errors that the computation may answer with. A checked computation that answers as a plain one does
    (`Answers`) never comes to a fault. -/

namespace Abnf

/-- What can go wrong in a single step. --/
inductive Fault where
  | outOfBounds
  /-- A number outgrew its word, or fell below zero. --/
  | overflow
  /-- Something taken for granted did not hold. --/
  | assertion
  /-- More was asked for than there is room for. --/
  | memory
  /-- A call went deeper than it may. --/
  | stack
  /-- A loop went on after its last round. --/
  | endless
  deriving DecidableEq, Repr

/-- Why a checked computation gives no result. --/
inductive Stop (ε : Type) where
  | fault (f : Fault)
  | refused (e : ε)
  deriving DecidableEq, Repr

def Stop.map {ε ε' : Type} (f : ε → ε') : Stop ε → Stop ε'
  | fault x => fault x
  | refused e => refused (f e)

/-- A computation that stops at faults and at errors of its own. --/
abbrev Checked (ε α : Type) := Except (Stop ε) α

namespace Checked

variable {ε α β γ δ : Type}

def fault (f : Fault) : Checked ε α := .error (.fault f)

def refuse (e : ε) : Checked ε α := .error (.refused e)

/-! ### Steps -/

/-- Go on only under a condition. --/
def ensure (f : Fault) (c : Bool) : Checked ε Unit := if c then .ok () else fault f

/-- What an index finds, which has to be there. --/
def present : Option α → Checked ε α
  | some a => .ok a
  | none => fault .outOfBounds

/-- The bytes from one offset up to another. --/
def slice (bs : List UInt8) (start stop : Nat) : Checked ε (List UInt8) := do
  ensure .outOfBounds (start ≤ stop ∧ stop ≤ bs.length)
  return (bs.drop start).take (stop - start)

/-- The sum of two numbers of `width` bits. --/
def add (width a b : Nat) : Checked ε Nat := do
  ensure .overflow (a + b < 2 ^ width)
  return a + b

def mul (width a b : Nat) : Checked ε Nat := do
  ensure .overflow (a * b < 2 ^ width)
  return a * b

def sub (a b : Nat) : Checked ε Nat := do
  ensure .overflow (b ≤ a)
  return a - b

/-- Make room for `count` things of `size` bytes each; no more than half of all addresses can be had. --/
def reserve (count size : Nat) : Checked ε Unit := ensure .memory (count * size < 2 ^ 63)

theorem ensure_eq {f : Fault} {c : Bool} (h : c = true) : (ensure f c : Checked ε Unit) = .ok () := by
  rw [ensure, if_pos h]

@[simp] theorem present_some (a : α) : (present (some a) : Checked ε α) = .ok a := rfl

theorem slice_eq {bs : List UInt8} {start stop : Nat} (h₁ : start ≤ stop) (h₂ : stop ≤ bs.length) :
    (slice bs start stop : Checked ε _) = .ok ((bs.drop start).take (stop - start)) := by
  rw [slice, ensure_eq (decide_eq_true ⟨h₁, h₂⟩)]
  rfl

theorem add_eq {width a b : Nat} (h : a + b < 2 ^ width) : (add width a b : Checked ε Nat) = .ok (a + b) := by
  rw [add, ensure_eq (decide_eq_true h)]
  rfl

theorem mul_eq {width a b : Nat} (h : a * b < 2 ^ width) : (mul width a b : Checked ε Nat) = .ok (a * b) := by
  rw [mul, ensure_eq (decide_eq_true h)]
  rfl

theorem sub_eq {a b : Nat} (h : b ≤ a) : (sub a b : Checked ε Nat) = .ok (a - b) := by
  rw [sub, ensure_eq (decide_eq_true h)]
  rfl

theorem reserve_eq {count size : Nat} (h : count * size < 2 ^ 63) : (reserve count size : Checked ε Unit) = .ok () :=
  ensure_eq (decide_eq_true h)

/-! ### Answers -/

/-- A plain computation as a checked one without faults. --/
def answer (x : Except ε α) : Checked ε α := x.mapError .refused

/-- A checked computation ends as a plain one does: with the same error, or with a result that stands for that of the
    plain one. --/
def Answers (R : α → β → Prop) (x : Checked ε α) : Except ε β → Prop
  | .ok b => ∃ a, x = .ok a ∧ R a b
  | .error e => x = refuse e

section
variable {R : α → β → Prop} {S : γ → δ → Prop} {x : Checked ε α} {y : Except ε β}

theorem Answers.ok {a : α} {b : β} (h : R a b) : Answers R (.ok a : Checked ε α) (.ok b) := ⟨a, rfl, h⟩

theorem Answers.refuse (R : α → β → Prop) (e : ε) : Answers R (refuse e : Checked ε α) (.error e) := rfl

theorem Answers.bind {f : α → Checked ε γ} {k : β → Except ε δ} (h : Answers R x y)
    (hf : ∀ a b, y = .ok b → R a b → Answers S (f a) (k b)) : Answers S (x >>= f) (y >>= k) := by
  cases y with
  | error e =>
    obtain rfl := h
    exact rfl
  | ok b =>
    obtain ⟨a, rfl, hab⟩ := h
    exact hf a b rfl hab

theorem Answers.bind_eq {x : Checked ε α} {y : Except ε α} {f : α → Checked ε γ} {k : α → Except ε δ}
    (h : Answers Eq x y) (hf : ∀ a, Answers S (f a) (k a)) : Answers S (x >>= f) (y >>= k) :=
  h.bind fun a _ _ heq => heq ▸ hf a

theorem Answers.ite {c : Prop} [Decidable c] {x' : Checked ε α} {y' : Except ε β} (h : c → Answers R x y)
    (h' : ¬c → Answers R x' y') : Answers R (if c then x else x') (if c then y else y') := by
  split
  · exact h (by assumption)
  · exact h' (by assumption)

theorem Answers.mono {R' : α → β → Prop} (h : Answers R x y) (hR : ∀ a b, R a b → R' a b) : Answers R' x y := by
  cases y with
  | error e => exact h
  | ok b =>
    obtain ⟨a, hx, hab⟩ := h
    exact ⟨a, hx, hR a b hab⟩

theorem Answers.map {R' : α → δ → Prop} (h : Answers R x y) (f : β → δ) (hf : ∀ a b, R a b → R' a (f b)) :
    Answers R' x (y >>= fun b => .ok (f b)) := by
  cases y with
  | error e => exact h
  | ok b =>
    obtain ⟨a, hx, hab⟩ := h
    exact ⟨a, hx, hf a b hab⟩

theorem answers_eq_iff {x : Checked ε α} {y : Except ε α} : Answers Eq x y ↔ x = answer y := by
  cases y with
  | error e => exact Iff.rfl
  | ok b =>
    constructor
    · rintro ⟨a, rfl, rfl⟩
      rfl
    · exact fun h => ⟨b, h, rfl⟩

theorem Answers.mapM {f : γ → Checked ε α} {k : γ → Except ε α} (h : ∀ c, Answers Eq (f c) (k c)) :
    ∀ cs : List γ, Answers Eq (cs.mapM f) (cs.mapM k)
  | [] => .ok rfl
  | c :: cs => by
    rw [List.mapM_cons, List.mapM_cons]
    exact (h c).bind_eq fun a => (Answers.mapM h cs).bind_eq fun as => .ok rfl

end

end Checked
end Abnf
