import Abnf.Match.Occurrence
import Abnf.Grammar.Basic

/-! Logs and the occurrences that they tell of. An occurrence is written as a log by `effects`, and replaying that log
    gives it back (`root?_effects`). Leaving the rules outside a set out of a log, pair by pair, is the same as putting
    in the place of their occurrences what lies inside them (`keepingFrom_effects`); the outermost occurrence stays in
    any case. -/

namespace Abnf

/-! ### Logs of occurrences -/

namespace Occurrence

mutual

/-- What a log says of an occurrence. --/
def effects : Occurrence → List Effect
  | of r span inner => .enter r span.start :: (effectsAll inner ++ [.exit span.stop])

def effectsAll : List Occurrence → List Effect
  | [] => []
  | o :: os => effects o ++ effectsAll os

end

theorem effectsAll_append : ∀ os ps : List Occurrence, effectsAll (os ++ ps) = effectsAll os ++ effectsAll ps
  | [], _ => rfl
  | o :: os, ps => by rw [List.cons_append, effectsAll, effectsAll_append os, effectsAll, List.append_assoc]

mutual

theorem replayFrom_effects : ∀ (o : Occurrence) (p : Open) (stack : List Open) (found : List Occurrence)
    (es : List Effect), replayFrom (p :: stack) found (o.effects ++ es) =
      replayFrom ({ p with found := o :: p.found } :: stack) found es
  | of r span inner, p, stack, found, es => by
    rw [effects, List.cons_append, List.append_assoc, replayFrom, replayFrom_effectsAll inner, List.singleton_append,
      replayFrom]
    simp [Open.close]

theorem replayFrom_effectsAll : ∀ (os : List Occurrence) (p : Open) (stack : List Open) (found : List Occurrence)
    (es : List Effect), replayFrom (p :: stack) found (effectsAll os ++ es) =
      replayFrom ({ p with found := os.reverse ++ p.found } :: stack) found es
  | [], _, _, _, _ => rfl
  | o :: os, p, stack, found, es => by
    rw [effectsAll, List.append_assoc, replayFrom_effects o, replayFrom_effectsAll os, List.reverse_cons,
      List.append_assoc, List.singleton_append]

end

/-- The log of an occurrence is replayed to it. --/
theorem replay_effects (o : Occurrence) : replay o.effects = some [o] := by
  obtain ⟨r, span, inner⟩ := o
  rw [replay, effects, replayFrom, replayFrom_effectsAll inner, replayFrom]
  simp [Open.close, replayFrom]

theorem root?_effects (o : Occurrence) : root? o.effects = some o := by
  rw [root?, replay_effects]
  rfl

/-! ### Leaving rules out -/

mutual

/-- What stands in the place of an occurrence if only the rules of a set are told of: the occurrence, or what lies
    inside it. --/
def keeping (keep : RuleId → Bool) : Occurrence → List Occurrence
  | of r span inner => if keep r then [of r span (keepingAll keep inner)] else keepingAll keep inner

def keepingAll (keep : RuleId → Bool) : List Occurrence → List Occurrence
  | [] => []
  | o :: os => keeping keep o ++ keepingAll keep os

end

/-- An occurrence that is told of in any case. --/
def restrict (keep : RuleId → Bool) : Occurrence → Occurrence
  | of r span inner => of r span (keepingAll keep inner)

theorem keepingAll_append (keep : RuleId → Bool) : ∀ os ps : List Occurrence,
    keepingAll keep (os ++ ps) = keepingAll keep os ++ keepingAll keep ps
  | [], _ => rfl
  | o :: os, ps => by rw [List.cons_append, keepingAll, keepingAll_append keep os, keepingAll, List.append_assoc]

mutual

/-- Only rules of the set are entered in what stands in the place of an occurrence. --/
theorem keep_of_mem_keeping {keep : RuleId → Bool} {q : RuleId} {pos : Nat} : ∀ {o : Occurrence},
    .enter q pos ∈ effectsAll (o.keeping keep) → keep q = true
  | of r span inner, h => by
    rw [keeping] at h
    split at h
    · simp only [effectsAll, effects, List.append_nil, List.mem_cons, Effect.enter.injEq, List.mem_append,
        List.not_mem_nil, or_false, reduceCtorEq] at h
      obtain ⟨rfl, rfl⟩ | h := h
      · assumption
      · exact keep_of_mem_keepingAll h
    · exact keep_of_mem_keepingAll h

theorem keep_of_mem_keepingAll {keep : RuleId → Bool} {q : RuleId} {pos : Nat} : ∀ {os : List Occurrence},
    .enter q pos ∈ effectsAll (keepingAll keep os) → keep q = true
  | [], h => absurd h List.not_mem_nil
  | o :: os, h => by
    rw [keepingAll, effectsAll_append, List.mem_append] at h
    exact h.elim keep_of_mem_keeping keep_of_mem_keepingAll

end

end Occurrence

namespace Log

/-- The rest of a log without the pairs of rules outside a set. `kept` says of each open rule, the innermost first,
    whether it stays; a rule that is entered outside all others does. --/
def keepingFrom (keep : RuleId → Bool) : (kept : List Bool) → List Effect → List Effect
  | _, [] => []
  | kept, .enter r start :: es =>
    if kept.isEmpty || keep r then .enter r start :: keepingFrom keep (true :: kept) es
    else keepingFrom keep (false :: kept) es
  | kept, .exit stop :: es =>
    if kept.headD true then .exit stop :: keepingFrom keep kept.tail es else keepingFrom keep kept.tail es

/-- A log without the pairs of rules outside a set, the outermost pair apart. --/
def keeping (keep : RuleId → Bool) (log : Log) : Log := (keepingFrom keep [] log.toList).toArray

end Log

namespace Occurrence

section
variable (keep : RuleId → Bool)

mutual

theorem keepingFrom_effects : ∀ (o : Occurrence) (k : Bool) (kept : List Bool) (es : List Effect),
    Log.keepingFrom keep (k :: kept) (o.effects ++ es) =
      effectsAll (o.keeping keep) ++ Log.keepingFrom keep (k :: kept) es
  | of r span inner, k, kept, es => by
    rw [effects, List.cons_append, List.append_assoc, Log.keepingFrom, keeping]
    cases hr : keep r with
    | true => simp [keepingFrom_effectsAll inner, Log.keepingFrom, effectsAll, effects]
    | false => simp [keepingFrom_effectsAll inner, Log.keepingFrom]

theorem keepingFrom_effectsAll : ∀ (os : List Occurrence) (k : Bool) (kept : List Bool) (es : List Effect),
    Log.keepingFrom keep (k :: kept) (effectsAll os ++ es) =
      effectsAll (keepingAll keep os) ++ Log.keepingFrom keep (k :: kept) es
  | [], _, _, _ => rfl
  | o :: os, k, kept, es => by
    rw [effectsAll, List.append_assoc, keepingFrom_effects o, keepingFrom_effectsAll os, keepingAll, effectsAll_append,
      List.append_assoc]

end

theorem keeping_toArray_effects (o : Occurrence) :
    Log.keeping keep o.effects.toArray = (o.restrict keep).effects.toArray := by
  obtain ⟨r, span, inner⟩ := o
  rw [Log.keeping, effects, restrict, effects, Log.keepingFrom, keepingFrom_effectsAll keep inner]
  simp [Log.keepingFrom]

end

/-! ### Places -/

mutual

/-- An occurrence of a defined rule that lies between two positions, and has in its span what lies inside it. --/
def Lies (g : Grammar) (low high : Nat) : Occurrence → Prop
  | of r span inner => (g.root? r).isSome ∧ low ≤ span.start ∧ span.start ≤ span.stop ∧ span.stop ≤ high ∧
      LieAll g span.start span.stop inner

/-- Occurrences one after the other: each begins no earlier than the one before it ends. --/
def LieAll (g : Grammar) (low high : Nat) : List Occurrence → Prop
  | [] => True
  | o :: os => Lies g low high o ∧ LieAll g o.span.stop high os

end

section
variable {g : Grammar} {low high low' high' : Nat}

theorem Lies.mono {o : Occurrence} (h : o.Lies g low high) (hlow : low' ≤ low) (hhigh : high ≤ high') :
    o.Lies g low' high' := by
  obtain ⟨r, span, inner⟩ := o
  obtain ⟨hr, hstart, hle, hstop, hinner⟩ := h
  exact ⟨hr, Nat.le_trans hlow hstart, hle, Nat.le_trans hstop hhigh, hinner⟩

theorem Lies.stop_le {o : Occurrence} (h : o.Lies g low high) : o.span.stop ≤ high := by
  obtain ⟨r, span, inner⟩ := o
  exact h.2.2.2.1

theorem Lies.le_stop {o : Occurrence} (h : o.Lies g low high) : low ≤ o.span.stop := by
  obtain ⟨r, span, inner⟩ := o
  exact Nat.le_trans h.2.1 h.2.2.1

theorem LieAll.mono : ∀ {os : List Occurrence} {low high low' high' : Nat}, LieAll g low high os → low' ≤ low →
    high ≤ high' → LieAll g low' high' os
  | [], _, _, _, _, _, _, _ => trivial
  | _ :: _, _, _, _, _, ⟨h, hs⟩, hlow, hhigh => ⟨h.mono hlow hhigh, hs.mono (Nat.le_refl _) hhigh⟩

/-- Occurrences up to a position, and others from there on. --/
theorem LieAll.append : ∀ {os ps : List Occurrence} {low mid high : Nat}, LieAll g low mid os → LieAll g mid high ps →
    low ≤ mid → mid ≤ high → LieAll g low high (os ++ ps)
  | [], _, _, _, _, _, hps, hlow, _ => hps.mono hlow (Nat.le_refl _)
  | _ :: _, _, _, _, _, ⟨h, hs⟩, hps, _, hhigh =>
    ⟨h.mono (Nat.le_refl _) hhigh, hs.append hps h.stop_le hhigh⟩

mutual

/-- What stands in the place of an occurrence lies where it did. --/
theorem Lies.keeping (keep : RuleId → Bool) : ∀ {o : Occurrence} {low high : Nat}, o.Lies g low high →
    LieAll g low o.span.stop (o.keeping keep)
  | of r span inner, low, high, ⟨hr, hstart, hle, hstop, hinner⟩ => by
    have hkept := hinner.keepingAll keep
    rw [Occurrence.keeping]
    split
    · exact ⟨⟨hr, hstart, hle, Nat.le_refl _, hkept⟩, trivial⟩
    · exact hkept.mono hstart (Nat.le_refl _)

theorem LieAll.keepingAll (keep : RuleId → Bool) : ∀ {os : List Occurrence} {low high : Nat}, LieAll g low high os →
    LieAll g low high (keepingAll keep os)
  | [], _, _, _ => trivial
  | _ :: _, _, _, ⟨h, hs⟩ => by
    rw [Occurrence.keepingAll]
    exact (h.keeping keep).append (hs.keepingAll keep) h.le_stop h.stop_le

end

end

end Occurrence
end Abnf
