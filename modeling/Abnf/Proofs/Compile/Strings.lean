import Abnf.Proofs.Compile.Lowering
import Abnf.Proofs.Compile.Validity
import Abnf.Proofs.Document.Leaves

/-! The strings of a document. Each is a token of its text (`Document.quotes_ofSource`), so what the compiler takes out of
    one is what its quotes hold, and exact is what is marked so (`Document.stringReader_ofSource`). The
    meaning of a document is the same where its strings read the same (`Document.meaning?_congr`). -/

namespace Abnf

/-! ### Strings among tokens -/

namespace Tree

theorem mem_forestTokens_of_directTokens : ∀ {ts : List Tree} {start : Nat} {t : Token × Span},
    t ∈ directTokens start ts → t.1 ∈ forestTokens ts
  | .leaf u :: ts, start, t, h => by
    rw [directTokens] at h
    rw [forestTokens, tokens, List.singleton_append]
    rcases List.mem_cons.mp h with rfl | h
    · exact List.mem_cons_self
    · exact List.mem_cons_of_mem u (mem_forestTokens_of_directTokens h)
  | .node kind children :: ts, start, t, h => by
    rw [directTokens] at h
    exact List.mem_append_right _ (mem_forestTokens_of_directTokens h)

theorem exists_token_of_word? {kind : TokenKind} {start : Nat} {ts : List Tree} {w : Word}
    (h : word? kind start ts = some w) : ∃ t ∈ forestTokens ts, t.kind = kind ∧ t.text = w.text := by
  obtain ⟨t, ht, rfl⟩ := Option.map_eq_some_iff.mp h
  rw [token?] at ht
  have hkind := List.find?_some ht
  exact ⟨t.1, mem_forestTokens_of_directTokens (List.mem_of_find?_eq_some ht), beq_iff_eq.mp hkind, rfl⟩

end Tree

namespace Expr

theorem mem_partsAll {x : Expr} : ∀ {es : List Expr}, x ∈ partsAll es ↔ ∃ e ∈ es, x ∈ e.parts
  | [] => by simp [partsAll]
  | e :: es => by rw [partsAll, List.mem_append, mem_partsAll, List.exists_mem_cons_iff]

/-- A string that is found among tokens. --/
def Quotes (ts : List Token) (w : Word) : Prop := ∃ t ∈ ts, t.kind = .charVal ∧ t.text = w.text

section
variable {w : Word}

theorem Quotes.mono {ts us : List Token} (h : Quotes ts w) (hsub : ts ⊆ us) : Quotes us w := by
  obtain ⟨t, ht, hkind, htext⟩ := h
  exact ⟨t, hsub ht, hkind, htext⟩

mutual

/-- The strings of an expression are tokens of its tree. --/
theorem quotes_ofTree? : ∀ (t : Tree) {start : Nat} {e : Expr}, e ∈ ofTree? start t → .str w ∈ e.parts → Quotes t.tokens w
  | .leaf _, _, _, h, _ => by cases h
  | .node kind children, start, e, h, hw => by
    have hall : .str w ∈ partsAll (ofForest start children) → Quotes (Tree.forestTokens children) w := fun hw => by
      obtain ⟨e, he, hw⟩ := mem_partsAll.mp hw
      exact quotes_ofForest children he hw
    have hhead : ∀ e ∈ (ofForest start children).head?, .str w ∈ e.parts → Quotes (Tree.forestTokens children) w :=
      fun e he hw => quotes_ofForest children (List.mem_of_head? he) hw
    rw [Tree.tokens]
    cases kind with
    | root | rule | bounds | error => cases h
    | alternation | concatenation =>
      cases h
      rw [parts, List.mem_append, List.mem_singleton] at hw
      exact hall (hw.resolve_right nofun)
    | ref | num | prose =>
      obtain ⟨x, -, rfl⟩ := Option.map_eq_some_iff.mp h
      cases List.mem_singleton.mp hw
    | str =>
      obtain ⟨x, hx, rfl⟩ := Option.map_eq_some_iff.mp h
      cases List.mem_singleton.mp hw
      exact Tree.exists_token_of_word? hx
    | repetition | group | optional =>
      cases h
      cases hfirst : (ofForest start children).head? with
      | none =>
        rw [hfirst] at hw
        cases List.mem_singleton.mp hw
      | some e =>
        rw [hfirst, parts, List.mem_append, List.mem_singleton] at hw
        exact hhead e hfirst (hw.resolve_right nofun)

theorem quotes_ofForest : ∀ (ts : List Tree) {start : Nat} {e : Expr}, e ∈ ofForest start ts → .str w ∈ e.parts →
    Quotes (Tree.forestTokens ts) w
  | [], _, _, h, _ => by cases h
  | t :: ts, start, e, h, hw => by
    rw [ofForest, List.mem_append, Option.mem_toList] at h
    rw [Tree.forestTokens]
    rcases h with h | h
    · exact (quotes_ofTree? t h hw).mono (List.subset_append_left _ _)
    · exact (quotes_ofForest ts h hw).mono (List.subset_append_right _ _)

end

/-- The same of the body of a definition. --/
theorem quotes_definitions : ∀ (ts : List Tree) {start : Nat} {d : Definition}, d ∈ Definition.ofForest start ts →
    ∀ e ∈ d.body, .str w ∈ e.parts → Quotes (Tree.forestTokens ts) w
  | [], _, _, h, _, _, _ => by cases h
  | t :: ts, start, d, h, e, he, hw => by
    have hrest : ∀ {start : Nat}, d ∈ Definition.ofForest start ts → Quotes (Tree.forestTokens (t :: ts)) w := fun h => by
      rw [Tree.forestTokens]
      exact (quotes_definitions ts h e he hw).mono (List.subset_append_right _ _)
    cases t with
    | leaf u => exact hrest h
    | node kind children =>
      cases kind with
      | rule =>
        rcases List.mem_cons.mp h with rfl | h
        · rw [Tree.forestTokens, Tree.tokens]
          exact (quotes_ofForest children (List.mem_of_head? he) hw).mono (List.subset_append_left _ _)
        · exact hrest h
      | root | alternation | concatenation | repetition | bounds | ref | str | num | prose | group | optional | error =>
        exact hrest h

end

/-! ### What strings read -/

section
variable {input : ByteArray} {strings strings' : String → Reader}

mutual

/-- What an expression reads depends on what its own strings read. --/
theorem reader_congr (rules : String → Reader) : ∀ e : Expr, (∀ w, .str w ∈ e.parts → strings w.text = strings' w.text) →
    e.reader input strings rules = e.reader input strings' rules
  | alternation _ es, h => by
    rw [reader, reader, readers_congr rules es fun w hw => h w (List.mem_append_left _ hw)]
  | concatenation _ es, h => by
    rw [reader, reader, readers_congr rules es fun w hw => h w (List.mem_append_left _ hw)]
  | repetition _ none none, _ | repetition _ (some _) none, _ => rfl
  | repetition _ none (some e), h => by
    rw [reader, reader, reader_congr rules e fun w hw => h w (List.mem_append_left _ hw)]
  | repetition _ (some r) (some e), h => by
    rw [reader, reader, reader_congr rules e fun w hw => h w (List.mem_append_left _ hw)]
  | ref _, _ | num _, _ | prose _, _ => rfl
  | str w, h => h w List.mem_cons_self
  | group _ none, _ | optional _ none, _ => rfl
  | group _ (some e), h => by
    rw [reader, reader, reader_congr rules e fun w hw => h w (List.mem_append_left _ hw)]
  | optional _ (some e), h => by
    rw [reader, reader, reader_congr rules e fun w hw => h w (List.mem_append_left _ hw)]

theorem readers_congr (rules : String → Reader) : ∀ es : List Expr,
    (∀ w, .str w ∈ partsAll es → strings w.text = strings' w.text) →
    readers input strings rules es = readers input strings' rules es
  | [], _ => rfl
  | e :: es, h => by
    rw [readers, readers, reader_congr rules e fun w hw => h w (List.mem_append_left _ hw),
      readers_congr rules es fun w hw => h w (List.mem_append_right _ hw)]

end

end
end Expr

/-! ### Documents -/

/-- A definition that gives a body to a name has that body. --/
theorem Definition.body_of_bodyOf {d : Definition} {incremental : Bool} {name : String} {body : Expr}
    (h : d.bodyOf incremental name = some body) : d.body = some body := by
  unfold bodyOf at h
  split at h
  · rename_i hbody
    split at h
    · rw [hbody, h]
    · cases h
  · cases h

namespace Document

variable {d : Document} {input : ByteArray} {strings strings' : String → Reader}

/-- What a document means depends on what its own strings read. --/
theorem meaning?_congr (h : ∀ w, Definition.Contains d.definitions (.str w) → strings w.text = strings' w.text)
    (name : String) : d.meaning? input strings name = d.meaning? input strings' name := by
  have hbody : ∀ {incremental : Bool} {e : Expr}, e ∈ Definition.bodiesOf incremental name d.definitions →
      (fun rules => e.reader input strings rules) = fun rules => e.reader input strings' rules := fun he =>
    funext fun rules => Expr.reader_congr rules _ fun w hw => h w ⟨_, _, _, he, hw⟩
  have hown : d.own? input strings name = d.own? input strings' name := by
    unfold own?
    cases hhead : (Definition.bodiesOf false name d.definitions).head? with
    | none => rfl
    | some e => exact congrArg some (hbody (List.mem_of_head? hhead))
  rw [meaning?, meaning?, hown, List.map_congr_left fun e he => hbody he]

/-- What a source is read as: its definitions, and the base that it is compiled with. --/
def ofSource (source : String) (o : CompileOptions) : Document :=
  ⟨(parse source o.nestingLimit).tree.definitions, o.base⟩

/-- The strings of a source are among its tokens. --/
theorem quotes_ofSource {source : String} {o : CompileOptions} {w : Word}
    (h : Definition.Contains (ofSource source o).definitions (.str w)) : Expr.Quotes (tokenize source) w := by
  obtain ⟨incremental, name, body, hbody, hw⟩ := h
  obtain ⟨d, hd, hbody⟩ := List.mem_filterMap.mp hbody
  rw [← tokens_parse source o.nestingLimit]
  exact Expr.quotes_definitions _ hd body (Definition.body_of_bodyOf hbody) hw

/-- The compiler reads the strings of a source as they are written. --/
theorem stringReader_ofSource {source : String} {o : CompileOptions} {w : Word}
    (h : Definition.Contains (ofSource source o).definitions (.str w)) (input : ByteArray) :
    Assembly.stringReader input w.text = Notation.stringReader input w.text := by
  obtain ⟨t, ht, hkind, htext⟩ := quotes_ofSource h
  obtain ⟨exact, text, hquoted, hunquote⟩ := Assembly.unquote_of_mem_tokenize ht hkind
  rw [← htext, Assembly.stringReader, hunquote, Notation.stringReader, hquoted]

end Document
end Abnf
