import Abnf.Diagnostic.Report
import Abnf.Proofs.Compile.Likeness
import Abnf.Proofs.Document.Tokens
import Abnf.Proofs.Text.Boundary
import Mathlib.Data.String.Basic

/-! Where diagnostics point. Tokens follow one another from the beginning of the source to its end, so where one begins or
    ends no character is cut (`boundary_of_mem_lexemes`). All that is told of a source points at tokens, from one to
    another, or right behind one, and this goes for faults of reading as for those of putting a grammar together
    (`inside_compile`). A report can therefore mark every one of them. -/

namespace Abnf

/-- A span of a source that does not cut through a character. --/
structure Span.Inside (source : String) (s : Span) : Prop where
  order : s.start ≤ s.stop
  stop_le : s.stop ≤ source.utf8ByteSize
  start : Boundary source s.start
  stop : Boundary source s.stop

/-- A diagnostic that points into a source, with all the places it is related to. --/
structure Diagnostic.Inside (source : String) (d : Diagnostic) : Prop where
  span : d.span.Inside source
  related : ∀ r ∈ d.related, r.span.Inside source

/-- All that is told of a document, whether it is compiled or not. --/
def Compilation.told : Except (List Diagnostic) Compilation → List Diagnostic
  | .error ds => ds
  | .ok c => c.warnings

/-! ### Boundaries -/

section
variable {source : String} {n : Nat}

theorem Token.total_eq : ∀ ts : List Token, total ts = (String.join (ts.map Token.text)).utf8ByteSize
  | [] => rfl
  | t :: ts => by
    rw [total_cons, List.map_cons, String.join_cons, String.utf8ByteSize_append, total_eq ts]
    rfl

/-- Between tokens there is a boundary. --/
theorem boundary_total {us vs : List Token} (h : tokenize source = us ++ vs) : Boundary source (Token.total us) := by
  refine boundary_iff.mpr ⟨String.join (us.map Token.text), String.join (vs.map Token.text), ?_, Token.total_eq us⟩
  rw [← String.join_append, ← List.map_append, ← h, join_tokenize]

/-- A lexeme stands behind the tokens that come before its own. --/
theorem Significant.exists_split {before ts : List Token} {ls : List Lexeme} (h : Significant before ts ls) :
    ∀ l ∈ ls, ∃ us vs, before ++ ts = us ++ l.token :: vs ∧ l.start = Token.total us := by
  induction h with
  | nil => exact nofun
  | @cons before leading ts t ls _ _ _ ih =>
    refine List.forall_mem_cons.mpr ⟨⟨before ++ leading, ts, (List.append_assoc _ _ _).symm, rfl⟩, fun l hl => ?_⟩
    obtain ⟨us, vs, heq, hstart⟩ := ih l hl
    refine ⟨us, vs, ?_, hstart⟩
    rw [← heq]
    simp

theorem boundary_of_mem_lexemes {l : Lexeme} (h : l ∈ (lexemes (tokenize source)).1) :
    Boundary source l.start ∧ Boundary source l.span.stop := by
  obtain ⟨us, vs, heq, hstart⟩ := (significant_lexemes (tokenize source)).exists_split l h
  rw [List.nil_append] at heq
  have hstop : l.span.stop = Token.total (us ++ [l.token]) := by
    rw [Token.total_snoc, ← hstart]
    rfl
  rw [hstart, hstop]
  exact ⟨boundary_total heq, boundary_total (by rw [heq, List.append_assoc, List.singleton_append])⟩

end

/-! ### What is told -/

/-- A document beside itself, with all places on boundaries. --/
def Likeness.inside (source : String) : Likeness where
  spelled := Eq
  placed n n' := n = n' ∧ Boundary source n
  refl _ := rfl
  sameName := @sameName_of_eq

section
variable {source : String}

theorem Span.Like.inside {s s' : Span} (h : s.Like (.inside source) s') : s.Inside source :=
  ⟨h.order, h.stop.2.le, h.start.2, h.stop.2⟩

/-- What a relation says of its left side holds of all that stands there. --/
theorem forall_mem_of_forall₂ {α : Type} {R : α → α → Prop} {P : α → Prop} (hR : ∀ x y, R x y → P x) {xs ys : List α}
    (h : List.Forall₂ R xs ys) : ∀ x ∈ xs, P x :=
  ((List.forall₂_and_left xs ys).mp (h.imp fun x y hxy => ⟨hR x y hxy, hxy⟩)).1

theorem Diagnostic.Like.inside {d d' : Diagnostic} (h : d.Like (.inside source) d') : d.Inside source :=
  ⟨h.span.inside, forall_mem_of_forall₂ (fun _ _ hr => hr.span.inside) h.related⟩

theorem Lexeme.beside_inside {l : Lexeme} (h : l ∈ (lexemes (tokenize source)).1) : l.Beside (.inside source) l where
  kind := rfl
  text _ := rfl
  name _ := rfl
  span := ⟨⟨rfl, (boundary_of_mem_lexemes h).1⟩, ⟨rfl, (boundary_of_mem_lexemes h).2⟩, Nat.le_add_right _ _⟩
  opensLine := rfl
  touching := rfl

/-- All that is told of a source, error or warning, points into it. --/
theorem inside_told (source : String) (o : CompileOptions) :
    ∀ d ∈ Compilation.told (compile source o), d.Inside source := by
  have hlexemes : List.Forall₂ (Lexeme.Beside (.inside source)) (lexemes (tokenize source)).1
      (lexemes (tokenize source)).1 := List.forall₂_same.mpr fun _ => Lexeme.beside_inside
  have hplaced : ∀ {n n' : Nat}, (Likeness.inside source).placed n n' → n = n' := And.left
  have hinside : ∀ d d' : Diagnostic, d.Like (.inside source) d' → d.Inside source := fun _ _ h => h.inside
  have htold := compile_told o hplaced hlexemes rfl
  generalize compile source o = x at htold ⊢
  cases htold with
  | ok h => exact forall_mem_of_forall₂ hinside h.2
  | error h => exact forall_mem_of_forall₂ hinside h

end

/-! ### Marked bytes -/

namespace Diagnostic

theorem byteSize_eq (cs : List Char) : byteSize cs = String.utf8Len cs := by
  have hsum : ∀ (cs : List Char) (n : Nat), cs.foldl (fun n c => n + c.utf8Size) n = n + String.utf8Len cs := by
    intro cs
    induction cs with
    | nil => exact fun _ => rfl
    | cons c cs ih =>
      intro n
      rw [List.foldl_cons, ih, String.utf8Len_cons]
      omega
  exact (hsum cs 0).trans (Nat.zero_add _)

theorem byteSize_toList (s : String) : byteSize s.toList = s.utf8ByteSize := by
  rw [byteSize_eq, ← String.utf8ByteSize_ofList, String.ofList_toList]

/-- Behind whole characters the rest of the source follows. --/
theorem after?_append : ∀ before after : List Char, after? (byteSize before) (before ++ after) = some after
  | [], [] => rfl
  | [], _ :: _ => rfl
  | c :: before, after => by
    have hpos := c.utf8Size_pos
    have ih := after?_append before after
    rw [byteSize_eq] at ih
    rw [byteSize_eq, String.utf8Len_cons, List.cons_append, after?, if_neg (by omega), if_neg (by omega),
      Nat.add_sub_cancel, ih]

/-- At a boundary the characters of the source go on, and those before them end. --/
theorem exists_after {source : String} {n : Nat} (h : Boundary source n) :
    ∃ cs, after? n source.toList = some cs ∧ ∀ c ∈ cs.head?, Boundary source (n + c.utf8Size) := by
  obtain ⟨before, after, rfl, rfl⟩ := boundary_iff.mp h
  refine ⟨after.toList, ?_, fun c hc => ?_⟩
  · rw [String.toList_append, ← byteSize_toList, after?_append]
  · obtain ⟨cs, hcs⟩ := List.head?_eq_some_iff.mp hc
    refine boundary_iff.mpr ⟨before ++ String.singleton c, String.ofList cs, ?_, ?_⟩
    · rw [← String.ofList_toList (s := after), hcs, String.ofList_cons, String.append_assoc]
    · rw [String.utf8ByteSize_append, String.utf8ByteSize_singleton]

/-- A report marks the bytes of such a span or, if there are none, the character that begins there. --/
theorem marked?_of_inside {source : String} {s : Span} (h : s.Inside source) :
    ∃ m, marked? source.toList s = some m ∧ m.Inside source ∧ m.start = s.start ∧ (s.start < s.stop → m = s) := by
  obtain ⟨cs, hcs, hnext⟩ := exists_after h.start
  obtain ⟨ds, hds, -⟩ := exists_after h.stop
  have hstart : min s.start (byteSize source.toList) = s.start := by
    rw [byteSize_toList]
    exact Nat.min_eq_left h.start.le
  have hstop : min s.stop (byteSize source.toList) = s.stop := by
    rw [byteSize_toList]
    exact Nat.min_eq_left h.stop_le
  have hmarked : marked? source.toList s =
      if s.start < s.stop then some s else some ⟨s.start, s.start + (cs.head?.map Char.utf8Size).getD 0⟩ := by
    rw [marked?, hstart, hstop, hcs, hds]
    rfl
  by_cases hlt : s.start < s.stop
  · exact ⟨s, hmarked.trans (if_pos hlt), h, rfl, fun _ => rfl⟩
  · refine ⟨_, hmarked.trans (if_neg hlt), ?_, rfl, fun h => absurd h hlt⟩
    cases hhead : cs.head? with
    | none => exact ⟨Nat.le_refl _, h.start.le, h.start, h.start⟩
    | some c => exact ⟨Nat.le_add_right _ _, (hnext c hhead).le, h.start, hnext c hhead⟩

end Diagnostic

/-- Everything that is told of a source can be reported against it. --/
theorem exists_reports (source : String) (o : CompileOptions) (path : Option String) :
    ∃ lines, Diagnostic.reports? source path (Compilation.told (compile source o)) = some lines := by
  have hmarked : ∀ {s : Span}, s.Inside source → (Diagnostic.marked? source.toList s).isSome = true := by
    intro s hs
    obtain ⟨m, hm, -⟩ := Diagnostic.marked?_of_inside hs
    rw [hm]
    rfl
  have hall : (Compilation.told (compile source o)).all (Diagnostic.isTellable source.toList) = true := by
    refine List.all_eq_true.mpr fun d hd => ?_
    have h := inside_told source o d hd
    rw [Diagnostic.isTellable, hmarked h.span, Bool.true_and]
    exact List.all_eq_true.mpr fun r hr => hmarked (h.related r hr)
  exact ⟨_, if_pos hall⟩

/-- Diagnostics point into the source. Every span of whatever is told of a source, related ones included, runs forward
    inside the source between boundaries of characters, and what a report marks for it does so too. --/
theorem inside_compile (source : String) (o : CompileOptions) : ∀ d ∈ Compilation.told (compile source o),
    ∀ s ∈ d.span :: d.related.map Diagnostic.Related.span, s.Inside source ∧
      ∃ m, Diagnostic.marked? source.toList s = some m ∧ m.Inside source := by
  intro d hd s hs
  have h := inside_told source o d hd
  have hinside : s.Inside source := by
    rcases List.mem_cons.mp hs with rfl | hs
    · exact h.span
    · obtain ⟨r, hr, rfl⟩ := List.mem_map.mp hs
      exact h.related r hr
  obtain ⟨m, hm, hminside, -⟩ := Diagnostic.marked?_of_inside hinside
  exact ⟨hinside, m, hm, hminside⟩

/-- A group that is not closed runs over a character of two bytes, and is related to the bracket that opens it. --/
theorem inside_compile_unclosed :
    let source := "r = (\"é\" ; ü\ns = \"a\"\n"
    ∃ d ∈ Compilation.told (compile source {}), d.related ≠ [] ∧ d.span = ⟨4, 9⟩ ∧
      ∀ s ∈ d.span :: d.related.map Diagnostic.Related.span, s.Inside source ∧
        ∃ m, Diagnostic.marked? source.toList s = some m ∧ m.Inside source := by
  intro source
  have htold : ∃ d ∈ Compilation.told (compile source {}), d.related ≠ [] ∧ d.span = ⟨4, 9⟩ := by decide +kernel
  obtain ⟨d, hd, hrelated, hspan⟩ := htold
  exact ⟨d, hd, hrelated, hspan, inside_compile source {} d hd⟩

end Abnf
