import Abnf.Grammar.Optimize
import Abnf.Proofs.Document.Likeness
import Abnf.Proofs.Grammar.Include

/-! Grammars that are like one another: the same but for how the names in their tables are spelled. Names are looked up
    without regard to their spelling, so what is done to both of them with names that are like one another leaves them
    like one another. -/

namespace Abnf

theorem sameName_of_eq {a a' : String} (h : a = a') : sameName a a' = true :=
  h ▸ sameName_refl a

/-- Two computations that both succeed or both fail, with results or failures that are related. --/
inductive Concur {ε α : Type} (E : ε → ε → Prop) (A : α → α → Prop) : Except ε α → Except ε α → Prop where
  | ok {a a' : α} (h : A a a') : Concur E A (.ok a) (.ok a')
  | error {e e' : ε} (h : E e e') : Concur E A (.error e) (.error e')

theorem Concur.bind {ε α β : Type} {E : ε → ε → Prop} {A : α → α → Prop} {B : β → β → Prop} {x x' : Except ε α}
    {f f' : α → Except ε β} (h : Concur E A x x') (hf : ∀ a a', A a a' → Concur E B (f a) (f' a')) :
    Concur E B (x >>= f) (x' >>= f') := by
  cases h with
  | ok h => exact hf _ _ h
  | error h => exact .error h

theorem findIdx?_forall₂ {α : Type} {R : α → α → Prop} {p q : α → Bool} (hpq : ∀ x y, R x y → p x = q y) {xs ys : List α}
    (h : List.Forall₂ R xs ys) : xs.findIdx? p = ys.findIdx? q := by
  induction h with
  | nil => rfl
  | cons hxy _ ih => rw [List.findIdx?_cons, List.findIdx?_cons, hpq _ _ hxy, ih]

theorem forall₂_modify {α : Type} {R : α → α → Prop} {f : α → α} (hf : ∀ x y, R x y → R (f x) (f y)) {xs ys : List α}
    (h : List.Forall₂ R xs ys) : ∀ n, List.Forall₂ R (xs.modify n f) (ys.modify n f) := by
  induction h with
  | nil => exact fun n => by rw [List.modify_nil]; exact .nil
  | cons hxy hs ih =>
    rintro (_ | n)
    · exact .cons (hf _ _ hxy) hs
    · exact .cons hxy (ih n)

variable (κ : Likeness)

structure Slot.Like (s s' : Slot) : Prop where
  name : κ.spelled s.name s'.name
  root : s.root = s'.root

/-- Grammars with the same nodes, and the same rules in the same places. --/
structure Grammar.Like (g g' : Grammar) : Prop where
  name : g.name = g'.name
  nodes : g.nodes = g'.nodes
  slots : List.Forall₂ (Slot.Like κ) g.slots.toList g'.slots.toList
  firstSets : g.firstSets = g'.firstSets

variable {κ}

theorem Likeness.sameName_eq {a a' b b' : String} (ha : κ.spelled a a') (hb : κ.spelled b b') :
    Abnf.sameName a b = Abnf.sameName a' b' := by
  have hfold := sameName_iff.mp (κ.sameName ha)
  have hfold' := sameName_iff.mp (κ.sameName hb)
  rw [Abnf.sameName, Abnf.sameName, hfold, hfold']

namespace Grammar.Like

variable {g g' : Grammar} {name name' : String}

theorem refl (g : Grammar) : g.Like κ g :=
  ⟨rfl, rfl, List.forall₂_same.mpr fun s _ => ⟨κ.refl s.name, rfl⟩, rfl⟩

theorem find? (h : g.Like κ g') (hname : κ.spelled name name') : g.find? name = g'.find? name' := by
  have hslots := findIdx?_forall₂ (fun s s' hs => κ.sameName_eq (Slot.Like.name hs) hname) h.slots
  rwa [← List.findIdx?_toArray, ← List.findIdx?_toArray] at hslots

theorem size_slots (h : g.Like κ g') : g.slots.size = g'.slots.size := h.slots.length_eq

theorem root? (h : g.Like κ g') (r : RuleId) : g.root? r = g'.root? r := by
  rw [Grammar.root?, Grammar.root?, ← Array.getElem?_toList, ← Array.getElem?_toList]
  have hslots := h.slots
  generalize g.slots.toList = ss at hslots ⊢
  generalize g'.slots.toList = ss' at hslots ⊢
  induction hslots generalizing r with
  | nil => exact rfl
  | cons hs _ ih =>
    cases r with
    | zero => exact hs.root
    | succ r => exact ih r

theorem addNode (h : g.Like κ g') (n : Node) :
    (g.addNode n).1 = (g'.addNode n).1 ∧ (g.addNode n).2.Like κ (g'.addNode n).2 :=
  ⟨congrArg Array.size h.nodes, h.name, congrArg (·.push n) h.nodes, h.slots, rfl⟩

theorem declare (h : g.Like κ g') (hname : κ.spelled name name') :
    (g.declare name).1 = (g'.declare name').1 ∧ (g.declare name).2.Like κ (g'.declare name').2 := by
  rw [Grammar.declare, Grammar.declare, h.find? hname]
  cases g'.find? name' with
  | some r => exact ⟨rfl, h⟩
  | none =>
    refine ⟨h.size_slots, h.name, h.nodes, ?_, h.firstSets⟩
    rw [Array.toList_push, Array.toList_push]
    exact List.rel_append h.slots (.cons ⟨hname, rfl⟩ .nil)

theorem declareAll {names names' : List String} (hnames : List.Forall₂ κ.spelled names names') :
    ∀ {g g' : Grammar}, g.Like κ g' → (g.declareAll names).Like κ (g'.declareAll names') := by
  induction hnames with
  | nil => exact fun h => h
  | cons hname _ ih => exact fun h => ih (h.declare hname).2

theorem addRef (h : g.Like κ g') (hname : κ.spelled name name') :
    (g.addRef name).1 = (g'.addRef name').1 ∧ (g.addRef name).2.Like κ (g'.addRef name').2 := by
  obtain ⟨hr, hdeclared⟩ := h.declare hname
  rw [Grammar.addRef, Grammar.addRef]
  dsimp only
  rw [hr]
  exact hdeclared.addNode _

theorem setRoot (h : g.Like κ g') (r : RuleId) (root : NodeId) : (g.setRoot r root).Like κ (g'.setRoot r root) where
  name := h.name
  nodes := h.nodes
  slots := by
    rw [Grammar.setRoot, Grammar.setRoot, Array.toList_modify, Array.toList_modify]
    exact forall₂_modify (fun s s' hs => ⟨hs.name, rfl⟩) h.slots r
  firstSets := h.firstSets

theorem define (h : g.Like κ g') (hname : κ.spelled name name') (root : NodeId) :
    (g.define name root).2.Like κ (g'.define name' root).2 := by
  obtain ⟨hr, hdeclared⟩ := h.declare hname
  rw [Grammar.define, Grammar.define]
  dsimp only
  rw [hr]
  have hset := hdeclared.setRoot (g'.declare name').1 root
  exact ⟨hset.name, hset.nodes, hset.slots, rfl⟩

theorem extend (h : g.Like κ g') (hname : κ.spelled name name') (alternative : NodeId) :
    Concur (fun _ _ => True) (fun x x' => x.1 = x'.1 ∧ x.2.Like κ x'.2) (g.extend name alternative)
      (g'.extend name' alternative) := by
  rw [Grammar.extend, Grammar.extend, h.find? hname]
  cases g'.find? name' with
  | none => exact .error trivial
  | some r =>
    dsimp only
    rw [h.root? r]
    cases g'.root? r with
    | none => exact .error trivial
    | some root =>
      have hextended : g.extended root alternative = g'.extended root alternative := by
        rw [Grammar.extended, Grammar.extended, h.nodes]
      obtain ⟨hi, hadded⟩ := h.addNode (g'.extended root alternative)
      dsimp only
      rw [hextended, hi]
      exact .ok ⟨rfl, hadded.setRoot r _⟩

theorem includeBase (h : g.Like κ g') (base : Grammar) : (g.includeBase base).Like κ (g'.includeBase base) := by
  have hdeclared : (g.withNames base).Like κ (g'.withNames base) :=
    h.declareAll (List.forall₂_same.mpr fun name _ => κ.refl name)
  have hplaces : (g.withNames base).placesOf base = (g'.withNames base).placesOf base :=
    congrArg (fun place => base.slots.map place) (funext fun s => congrArg (·.getD 0) (hdeclared.find? (κ.refl s.name)))
  refine ⟨hdeclared.name, ?_, ?_, rfl⟩
  · change g.nodes ++ base.nodes.map (·.map (· + g.nodes.size) fun r => ((g.withNames base).placesOf base).getD r 0) = _
    rw [hplaces, h.nodes]
    exact rfl
  · have hfill : ∀ s s' : Slot, s.Like κ s' → (base.fillSlot g.nodes.size s).Like κ (base.fillSlot g'.nodes.size s') := by
      intro s s' hs
      rw [fillSlot, fillSlot, hs.root, h.nodes, find?_sameName (κ.sameName hs.name)]
      cases hroot : s'.root with
      | none => exact ⟨hs.name, rfl⟩
      | some root => exact hs
    rw [Grammar.includeBase, Grammar.includeBase, Array.toList_map, Array.toList_map]
    exact List.rel_map hfill hdeclared.slots

theorem undefinedNames (h : g.Like κ g') : List.Forall₂ κ.spelled g.undefinedNames g'.undefinedNames :=
  List.rel_map (fun _ _ hs => Slot.Like.name hs)
    (List.rel_filter (fun _ _ hs => iff_of_eq (congrArg (·.isNone = true) (Slot.Like.root hs))) h.slots)

theorem optimize (h : g.Like κ g') : g.optimize.Like κ g'.optimize :=
  ⟨h.name, h.nodes, h.slots, congrArg some (computeFirstSets_congr h.nodes h.root?)⟩

end Grammar.Like
end Abnf
