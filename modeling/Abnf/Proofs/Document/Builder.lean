import Abnf.Document.Tree
import Abnf.Proofs.Checked
import Mathlib.Algebra.GroupWithZero.Nat

/-! What builds trees from tokens that come one by one. Nodes are begun and ended around the tokens, and a node may also
    be begun at a mark, so that it holds what has come since. A builder is sound if whole trees come out as they were
    handed over, however they were begun (`Builder.Sound`); one that keeps a stack of open nodes is (`sound_stack`). -/

namespace Abnf

open Checked

/-- Builders in states `β` that give marks `μ`. --/
structure Builder (β μ : Type) where
  empty : β
  leaf : Token → β → β
  enter : NodeKind → β → β
  mark : β → μ
  /-- Begin a node at a mark, which has to be inside the node that was begun last. --/
  enterAt : μ → NodeKind → β → Checked Empty β
  /-- End the node that was begun last, of which there has to be one. --/
  leave : β → Checked Empty β
  /-- The tree, which has to be a single node. --/
  finish : β → Checked Empty Tree

namespace Builder

variable {β μ : Type} (B : Builder β μ)

mutual

/-- Hand over a tree, node by node and token by token. --/
def place (b : β) : Tree → Checked Empty β
  | .leaf t => .ok (B.leaf t b)
  | .node kind ts => do B.leave (← placeAll (B.enter kind b) ts)

def placeAll (b : β) : List Tree → Checked Empty β
  | [] => .ok b
  | t :: ts => do placeAll (← place b t) ts

end

/-- The builder gets from one state to another by whole trees. --/
def Places (ts : List Tree) (b b' : β) : Prop := B.placeAll b ts = .ok b'

structure Sound : Prop where
  /-- What was begun can be ended. --/
  leave {kind : NodeKind} {ts : List Tree} {b b' : β} (h : B.Places ts (B.enter kind b) b') : ∃ b'', B.leave b' = .ok b''
  /-- A node begun at a mark is a node begun when the mark was made. --/
  enterAt {kind : NodeKind} {ts : List Tree} {b b' b'' : β} (h : B.Places ts b b')
    (h' : B.Places ts (B.enter kind b) b'') : B.enterAt (B.mark b) kind b' = .ok b''
  finish {kind : NodeKind} {ts : List Tree} {b : β} (h : B.Places [.node kind ts] B.empty b) :
    B.finish b = .ok (.node kind ts)

section
variable {B} {ts us : List Tree} {b b' b'' : β}

theorem Places.nil (b : β) : B.Places [] b b := by rw [Places, placeAll]

theorem places_leaf (t : Token) (b : β) : B.Places [.leaf t] b (B.leaf t b) := by
  rw [Places, placeAll, place, ok_bind, placeAll]

theorem Places.append (h : B.Places ts b b') (h' : B.Places us b' b'') : B.Places (ts ++ us) b b'' := by
  induction ts generalizing b with
  | nil =>
    rw [Places, placeAll] at h
    cases h
    exact h'
  | cons t ts ih =>
    rw [Places, placeAll] at h
    obtain ⟨c, hc, h⟩ := bind_eq_ok.mp h
    rw [List.cons_append, Places, placeAll, hc]
    exact ih h

theorem Places.node {kind : NodeKind} (h : B.Places ts (B.enter kind b) b') (hleave : B.leave b' = .ok b'') :
    B.Places [.node kind ts] b b'' := by
  rw [Places, placeAll, place, h, ok_bind, hleave, ok_bind, placeAll]

theorem places_leaves : ∀ (ts : List Token) (b : β),
    B.Places (ts.map .leaf) b (ts.foldl (fun b t => B.leaf t b) b)
  | [], b => .nil b
  | t :: ts, b => (places_leaf t b).append (places_leaves ts _)

mutual

theorem Sound.exists_place (sound : B.Sound) (b : β) : ∀ t : Tree, ∃ b', B.place b t = .ok b'
  | .leaf t => ⟨B.leaf t b, by rw [place]⟩
  | .node kind ts => by
    obtain ⟨b', h⟩ := exists_placeAll sound (B.enter kind b) ts
    obtain ⟨b'', h'⟩ := sound.leave h
    exact ⟨b'', by rw [place, h, ok_bind, h']⟩

theorem Sound.exists_placeAll (sound : B.Sound) (b : β) : ∀ ts : List Tree, ∃ b', B.placeAll b ts = .ok b'
  | [] => ⟨b, by rw [placeAll]⟩
  | t :: ts => by
    obtain ⟨b', h⟩ := exists_place sound b t
    obtain ⟨b'', h'⟩ := exists_placeAll sound b' ts
    exact ⟨b'', by rw [placeAll, h, ok_bind, h']⟩

end

/-- Trees since a mark may be put under a node after the fact. --/
theorem Sound.wrap (sound : B.Sound) (kind : NodeKind) (h : B.Places ts b b') :
    ∃ b'', B.enterAt (B.mark b) kind b' = .ok b'' ∧ B.Places ts (B.enter kind b) b'' := by
  obtain ⟨b'', h'⟩ := sound.exists_placeAll (B.enter kind b) ts
  exact ⟨b'', sound.enterAt h h', h'⟩

end

/-! ### A stack of open nodes -/

structure Stack where
  /-- The nodes that are not ended yet, the last one first, each with the trees before it. --/
  opened : List (NodeKind × List Tree)
  /-- The trees since the last node was begun. --/
  made : List Tree

/-- How many trees stand before the node that was begun last. --/
def Stack.base (b : Stack) : Nat := (b.opened.map (·.2.length)).sum

/-- A mark is a number of trees. --/
def stack : Builder Stack Nat where
  empty := ⟨[], []⟩
  leaf t b := { b with made := b.made ++ [.leaf t] }
  enter kind b := ⟨(kind, b.made) :: b.opened, []⟩
  mark b := b.base + b.made.length
  enterAt mark kind b := do
    ensure .assertion (mark ≤ b.base + b.made.length)
    ensure .assertion (b.base ≤ mark)
    return ⟨(kind, b.made.take (mark - b.base)) :: b.opened, b.made.drop (mark - b.base)⟩
  leave b := match b.opened with
    | (kind, before) :: opened => .ok ⟨opened, before ++ [.node kind b.made]⟩
    | [] => fault .assertion
  finish b := match b.opened, b.made with
    | [], [.node kind ts] => .ok (.node kind ts)
    | _, _ => fault .assertion

mutual

theorem place_stack (b : Stack) : ∀ t : Tree, stack.place b t = .ok { b with made := b.made ++ [t] }
  | .leaf t => by rw [place]; rfl
  | .node kind ts => by rw [place, placeAll_stack _ ts]; rfl

theorem placeAll_stack (b : Stack) : ∀ ts : List Tree, stack.placeAll b ts = .ok { b with made := b.made ++ ts }
  | [] => by rw [placeAll, List.append_nil]
  | t :: ts => by rw [placeAll, place_stack b t, ok_bind, placeAll_stack _ ts, List.append_assoc, List.singleton_append]

end

theorem sound_stack : stack.Sound where
  leave {kind ts b b'} h := by
    rw [Places, placeAll_stack] at h
    cases h
    exact ⟨_, rfl⟩
  enterAt {kind ts b b' b''} h h' := by
    rw [Places, placeAll_stack] at h h'
    cases h
    cases h'
    have hlow : b.base ≤ b.base + b.made.length := Nat.le_add_right _ _
    have hhigh : b.base + b.made.length ≤ b.base + (b.made ++ ts).length := by simp
    have hcut : b.base + b.made.length - b.base = b.made.length := Nat.add_sub_cancel_left _ _
    change (do
      ensure .assertion (b.base + b.made.length ≤ b.base + (b.made ++ ts).length)
      ensure .assertion (b.base ≤ b.base + b.made.length)
      return (⟨(kind, (b.made ++ ts).take (b.base + b.made.length - b.base)) :: b.opened,
        (b.made ++ ts).drop (b.base + b.made.length - b.base)⟩ : Stack)) = _
    rw [ensure_eq (decide_eq_true hhigh), ensure_eq (decide_eq_true hlow), hcut, List.take_left, List.drop_left]
    rfl
  finish {kind ts b} h := by
    rw [Places, placeAll_stack] at h
    cases h
    rfl

end Builder
end Abnf
