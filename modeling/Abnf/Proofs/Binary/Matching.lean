import Abnf.Proofs.Binary.RoundTrip
import Abnf.Proofs.Match.Resemblance

/-! What is read back matches as what was saved (`run_decode_encode`): it copies the nodes of all rules, and its rules
    are in their old places. Only the greatest word as an upper bound is lost, which no input is long enough
    to tell. -/

namespace Abnf

namespace Binary

theorem sameBound_readMax (max : Option UInt32) : Node.SameBound max (Pattern.readMax max) := by
  intro count hcount
  unfold Pattern.readMax
  split
  · rename_i h
    subst h
    simp [unbounded]
    exact hcount
  · rfl

section
variable {g g' : Grammar} {name : RuleId → String}

/-- A node of the one grammar and a node of the other have one pattern, read back from what was written. --/
def Related (g g' : Grammar) (i i' : NodeId) : Prop :=
  ∃ p : Pattern RuleId, g.Unfolds Eq p i ∧ g'.Unfolds g.Stands (p.spell g.ruleName) i'

theorem related_all : ∀ {ps : List (Pattern RuleId)} {ns ns' : List NodeId}, g.UnfoldsAll Eq ps ns →
    g'.UnfoldsAll g.Stands (Pattern.spells g.ruleName ps) ns' → List.Forall₂ (Related g g') ns ns'
  | [], [], [], _, _ => .nil
  | p :: _, _ :: _, _ :: _, ⟨h, hs⟩, ⟨h', hs'⟩ => .cons ⟨p, h, h'⟩ (related_all hs hs')
  | [], [], _ :: _, _, h' => h'.elim
  | [], _ :: _, _, h, _ => h.elim
  | _ :: _, [], _, h, _ => h.elim
  | _ :: _, _ :: _, [], _, h' => h'.elim

/-- A grammar with the patterns of another copies it. --/
theorem Restores.copies (hr : Restores g g') (hw : g.WellFormed) (hc : g.isComplete = true) :
    g.Copies (Related g g') g' where
  nodes i i' h := by
    obtain ⟨p, h, h'⟩ := h
    cases p with
    | literal bs ignoreCase => exact ⟨_, _, h, h', .literal bs ignoreCase⟩
    | charRange lo hi => exact ⟨_, _, h, h', .charRange lo hi⟩
    | sequence ps =>
      obtain ⟨ns, hn, hns⟩ := h
      obtain ⟨ns', hn', hns'⟩ := h'
      exact ⟨_, _, hn, hn', .sequence (related_all hns hns')⟩
    | choice ps =>
      obtain ⟨ns, hn, hns⟩ := h
      obtain ⟨ns', hn', hns'⟩ := h'
      exact ⟨_, _, hn, hn', .choice (related_all hns hns')⟩
    | repetition p min max =>
      obtain ⟨n, hn, hp⟩ := h
      obtain ⟨n', hn', hp'⟩ := h'
      exact ⟨_, _, hn, hn', .repetition ⟨p, hp, hp'⟩ min (sameBound_readMax max)⟩
    | ruleRef r =>
      have hlt : r < g.slots.size := hw.refers h
      obtain ⟨q, hn, rfl⟩ := h
      obtain ⟨q', hn', hq'⟩ := h'
      obtain rfl : r = q' := Option.some.inj ((stands_ruleName hw hlt).symm.trans hq')
      exact ⟨_, _, hn, hn', .ruleRef r⟩
    | fold p =>
      obtain ⟨n, hn, hp⟩ := h
      obtain ⟨n', hn', hp'⟩ := h'
      exact ⟨_, _, hn, hn', .fold ⟨p, hp, hp'⟩⟩
  roots r := by
    by_cases hlt : r < g.slots.size
    · obtain ⟨i, hi⟩ := Option.ne_none_iff_exists'.mp ((hw.complete hc).root?_ne_none hlt)
      obtain ⟨i', hi', hunf⟩ := hr.roots r i hi
      exact Or.inr ⟨i, i', hi, hi', _, hw.unfolds_pattern (hw.roots r i hi), hunf⟩
    · have hsize := congrArg Array.size hr.names
      rw [Array.size_map, Array.size_map] at hsize
      have hle : g.slots.size ≤ r := Nat.le_of_not_lt hlt
      refine Or.inl ⟨?_, ?_⟩
      · rw [Grammar.root?, Array.getElem?_eq_none hle]
        rfl
      · rw [Grammar.root?, Array.getElem?_eq_none (hsize.le.trans hle)]
        rfl

end

/-! ### Runs -/

section
variable {g g' : Grammar}

/-- What is read was not too long and not too deep. --/
theorem eq_restored (hw : g.WellFormed) {bytes : List UInt8} (h : encode g = .ok bytes) (hd : decode bytes = .ok g') :
    g' = (restored g).optimize := by
  obtain ⟨hlen, hheight⟩ := (decode_encode_iff hw h).mp ⟨g', hd⟩
  obtain ⟨hc, rfl⟩ := (encode_eq_ok g).mp h
  rw [decode_image hw hc hlen, if_pos (rulesHeight_le.mpr hheight)] at hd
  exact (Except.ok.inj hd).symm

/-- What is saved and read back has the same name and the same rules in the same places, and matches as before: every
    match that comes to an end finds the same. --/
theorem run_decode_encode (hw : g.WellFormed) {bytes : List UInt8} (h : encode g = .ok bytes)
    (hd : decode bytes = .ok g') :
    g'.name = g.name ∧ g'.slots.map Slot.name = g.slots.map Slot.name ∧
      ∀ (r : RuleId) (observed : RuleId → Bool) (input : ByteArray) (start : Nat), r < g.slots.size →
        input.size < 2 ^ 32 - 1 → Match.Terminates ⟨g, input, observed⟩ r start →
        ∃ found, (Match.run ⟨g, input, observed⟩ r start).map Run.found = .ok found ∧
          (Match.run ⟨g', input, observed⟩ r start).map Run.found = .ok found := by
  obtain rfl := eq_restored hw h hd
  obtain ⟨hc, -⟩ := (encode_eq_ok g).mp h
  have hres := restores_restored hw hc
  refine ⟨hres.name, hres.names, fun r observed input start hr hsize hterm => ?_⟩
  exact Match.run_resemble hw hc (hres.copies hw hc).resembles hr (Nat.le_sub_one_of_lt hsize) hterm

end

theorem run_decode_encode_turns :
    ∃ bytes g', encode Grammar.turns = .ok bytes ∧ decode bytes = .ok g' ∧
      ∃ found, (Match.run ⟨Grammar.turns, ⟨#[0x41, 0x62, 0x61]⟩, fun _ => true⟩ 0 0).map Run.found = .ok found ∧
        (Match.run ⟨g', ⟨#[0x41, 0x62, 0x61]⟩, fun _ => true⟩ 0 0).map Run.found = .ok found := by
  have hw := Grammar.wellFormed_turns
  have hc : Grammar.turns.isComplete = true := by decide +kernel
  have henc : encode Grammar.turns = .ok (image Grammar.turns).bytes := (encode_eq_ok _).mpr ⟨hc, rfl⟩
  have hdec : decode (image Grammar.turns).bytes = .ok (restored Grammar.turns).optimize := by
    rw [decode_image hw hc (by decide +kernel), if_pos (by decide +kernel)]
  exact ⟨_, _, henc, hdec,
    (run_decode_encode hw henc hdec).2.2 0 (fun _ => true) _ 0 (by decide) (by decide) ⟨16, by decide⟩⟩

end Binary
end Abnf
