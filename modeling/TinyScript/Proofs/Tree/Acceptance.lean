import Mathlib.Data.List.Forall2
import Mathlib.Data.Option.Basic
import TinyScript.Proofs.Token.Lexed
import TinyScript.Proofs.Tree.Extent
import TinyScript.Proofs.Tree.Span

/-
  Whatever the parser accepts is derived by the grammar.

  `Parse.Yields p L R`: the tokens that `p` moves past derive a tree of `L`, and the
  result of `p` is that tree in the sense of `R`.  There is one lemma for every parser,
  from those for its parts.

  The rules for expressions are gone through once, for expressions along their tokens
  (`Expr.Along`): what they derive and what their offsets name are both read off from that.

  The lemmas for statements and programs hold for whatever is said of expressions: they speak
  of `Stmt.outline f` and `Source.outline f`, where `f` is applied to the expressions and all
  other nodes are blank.  With `Expr.bare` for `f` these are the bare trees.
-/

namespace TinyScript

open Grammar

/-- All tokens ahead come from a text. -/
def ParserState.Lexed (s : ParserState) : Prop := ∀ t ∈ s.rest, t.Lexed

/-- What the parser accepts is a phrase. -/
def Parse.Yields {α β : Type} (p : Parse α) (L : Phrase β) (R : α → β → Prop) : Prop :=
  ∀ s a s', s.Lexed → p s = .ok a s' → ∃ ts b, s.rest = ts ++ s'.rest ∧ L ts b ∧ R a b

/-- The parsed tree is the bare one once its node numbers are erased. -/
abbrev Expr.Is (e b : Expr) : Prop := e.bare = b

abbrev Declaration.Is (d b : Declaration) : Prop := d.bare = b

abbrev Stmt.Is (s b : Stmt) : Prop := s.bare = b

abbrev Field.Is (f b : Field) : Prop := f.bare = b

abbrev Method.Is (m b : Method) : Prop := m.bare = b

/-! ## Trees -/

def Declaration.outline (f : Expr → Expr) (d : Declaration) : Declaration :=
  { d with node := .blank, value := d.value.map f }

mutual

/-- The statement with its own node blank and `f` applied to the expressions in it. -/
def Stmt.outline (f : Expr → Expr) : Stmt → Stmt
  | .expression e => .expression (f e)
  | .declare d => .declare (d.outline f)
  | .assign receiver value => .assign (f receiver) (f value)
  | .branch c ss ss' => .branch (f c) (Stmt.outlineList f ss) (Stmt.outlineList f ss')
  | .forEach x e ss => .forEach x (f e) (Stmt.outlineList f ss)
  | .loop c ss => .loop (f c) (Stmt.outlineList f ss)
  | .ret _ e => .ret 0 (f e)
termination_by structural s => s

def Stmt.outlineList (f : Expr → Expr) : List Stmt → List Stmt
  | [] => []
  | s :: ss => s.outline f :: Stmt.outlineList f ss
termination_by structural ss => ss

end

def Field.outline (f : Expr → Expr) (d : Field) : Field :=
  { d with node := .blank, value := d.value.map f }

def Method.outline (f : Expr → Expr) (m : Method) : Method :=
  { m with node := .blank, body := Stmt.outlineList f m.body }

/-- The program with all nodes blank but those of expressions, and `f` applied to these. -/
def Source.outline (f : Expr → Expr) (s : Source) : Source where
  fields := s.fields.map (Field.outline f)
  methods := s.methods.map (Method.outline f)

theorem Stmt.outlineList_eq_map (f : Expr → Expr) (ss : List Stmt) :
    Stmt.outlineList f ss = ss.map (Stmt.outline f) := by
  induction ss with
  | nil => rfl
  | cons s ss ih => rw [Stmt.outlineList, ih, List.map_cons]

mutual

theorem Stmt.outline_bare : (s : Stmt) → s.outline Expr.bare = s.bare
  | .expression _ | .declare _ | .assign _ _ | .ret _ _ => rfl
  | .branch c ss ss' => by
    rw [outline, bare, outlineList_bare ss, outlineList_bare ss']
  | .forEach x e ss => by rw [outline, bare, outlineList_bare ss]
  | .loop c ss => by rw [outline, bare, outlineList_bare ss]
termination_by structural s => s

theorem Stmt.outlineList_bare (ss : List Stmt) :
    Stmt.outlineList Expr.bare ss = Stmt.bareList ss := by
  cases ss with
  | nil => rfl
  | cons s ss => rw [outlineList, bareList, outline_bare s, outlineList_bare ss]
termination_by structural ss

end

theorem Source.outline_bare (s : Source) : s.outline Expr.bare = s.bare := by
  have hmethod : Method.outline Expr.bare = Method.bare := by
    funext m
    rw [Method.outline, Stmt.outlineList_bare, Method.bare]
  rw [outline, hmethod]
  rfl

theorem Stmt.bareList_eq_map (ss : List Stmt) : Stmt.bareList ss = ss.map Stmt.bare := by
  induction ss with
  | nil => rfl
  | cons s ss ih => rw [Stmt.bareList, ih, List.map_cons]

theorem map_eq_of_forall₂ {α β : Type} {f : α → β} {xs : List α} {ys : List β}
    (h : List.Forall₂ (fun a b => f a = b) xs ys) : xs.map f = ys := by
  induction h with
  | nil => rfl
  | cons ha _ ih => rw [List.map_cons, ha, ih]

theorem map_eq_of_rel {α β : Type} {f : α → β} {x : Option α} {y : Option β}
    (h : Option.Rel (fun a b => f a = b) x y) : x.map f = y := by
  cases h with
  | none => rfl
  | some ha => rw [Option.map_some, ha]

theorem eq_of_rel {α : Type} {x y : Option α} (h : Option.Rel Eq x y) : x = y := by
  cases h with
  | none => rfl
  | some ha => rw [ha]

/-! ## Single tokens -/

theorem ParserState.Lexed.after {s s' : ParserState} {ts : List Token} (h : s.Lexed)
    (hrest : s.rest = ts ++ s'.rest) : s'.Lexed := by
  intro t ht
  refine h t ?_
  rw [hrest]
  exact List.mem_append_right ts ht

theorem ParserState.Lexed.tail {s s' : ParserState} {t : Token} (h : s.Lexed)
    (hrest : s.rest = t :: s'.rest) : s'.Lexed := by
  intro u hu
  refine h u ?_
  rw [hrest]
  exact List.mem_cons_of_mem t hu

theorem ParserState.Lexed.next {s : ParserState} (h : s.Lexed) : s.next.Lexed :=
  fun t ht => h t (List.mem_of_mem_tail ht)

namespace Parse

variable {α β : Type} {s s' : ParserState}

theorem rest_of_next? {t : Token} (h : s.stream.next? = some t) : s.rest = t :: s.next.rest :=
  (List.eq_cons_of_mem_head? (Option.mem_def.2 h))

theorem is_of_peek {text : String} (hs : s.Lexed) (hterm : isTerminal text = true)
    (h : s.stream.peek (.text text) = true) : ∃ t, s.rest = t :: s.next.rest ∧ t.Is text := by
  cases ht : s.stream.next? with
  | none => simp [TokenStream.peek, ht] at h
  | some t =>
    have htext : t.text = text := by simpa [TokenStream.peek, ht, Token.Pattern.accepts] using h
    have hrest := rest_of_next? ht
    refine ⟨t, hrest, (hs t ?_).is htext hterm⟩
    rw [hrest]
    exact List.mem_cons_self

/-- A terminal that comes next and what follows it. -/
theorem led_of_peek {text : String} {p : Parse α} {L : Phrase β} {R : α → β → Prop} {a : α}
    (hterm : isTerminal text = true) (hp : Yields p L R) (hs : s.Lexed)
    (h : s.stream.peek (.text text) = true) (ha : p s.next = .ok a s') :
    ∃ ts b, s.rest = ts ++ s'.rest ∧ Led text L ts b ∧ R a b := by
  obtain ⟨t, hrest, ht⟩ := is_of_peek hs hterm h
  obtain ⟨ts, b, hrest', hL, hR⟩ := hp s.next a s' hs.next ha
  exact ⟨t :: ts, b, by rw [hrest, hrest']; rfl, .intro ht hL, hR⟩

theorem yields_expectText {text expected : String} {u : Unit} (hs : s.Lexed)
    (hterm : isTerminal text = true) (h : expectText text expected s = .ok u s') :
    ∃ t, s.rest = t :: s'.rest ∧ t.Is text := by
  obtain ⟨t, ht, htext, rfl⟩ := expectText_eq_ok.1 h
  have hrest := rest_of_next? ht
  refine ⟨t, hrest, (hs t ?_).is htext hterm⟩
  rw [hrest]
  exact List.mem_cons_self

theorem yields_expectName {expected : String} : Yields (expectName expected) Identifier Eq := by
  intro s name s' hs h
  obtain ⟨t, ht, hkind, rfl, rfl⟩ := expectName_eq_ok.1 h
  exact ⟨[t], t.text, rest_of_next? ht, .intro hkind, rfl⟩

theorem yields_optionalAfter {text : String} {p : Parse α} {L : Phrase β} {R : α → β → Prop}
    (hterm : isTerminal text = true) (hp : Yields p L R) :
    Yields (optionalAfter text p) (Optional (Led text L)) (Option.Rel R) := by
  intro s a s' hs h
  rcases optionalAfter_eq_ok.1 h with ⟨-, rfl, rfl⟩ | ⟨hpeek, b, rfl, hb⟩
  · exact ⟨[], none, rfl, .none, .none⟩
  · obtain ⟨ts, c, hrest, hL, hR⟩ := led_of_peek hterm hp hs hpeek hb
    exact ⟨ts, some c, hrest, .some hL, .some hR⟩

/-! ## Lists -/

section
variable {item : Parse α} {L : Phrase β} {R : α → β → Prop}

theorem yields_listTail (hi : Yields item L R) (bound : List Token) :
    Yields (listTail item ")" bound) (ListTail L) (List.Forall₂ R) := by
  induction bound with
  | nil =>
    intro s as s' _ h
    simp [listTail] at h
  | cons _ bound ih =>
    intro s as s' hs h
    rw [listTail, acceptText_bind] at h
    split at h
    · rename_i hpeek
      obtain ⟨t, hrest, ht⟩ := is_of_peek hs (by decide) hpeek
      simp only [↓reduceIte, pure_apply, EStateM.Result.ok.injEq] at h
      obtain ⟨rfl, rfl⟩ := h
      exact ⟨[t], [], hrest, .close ht, .nil⟩
    · simp only [Bool.false_eq_true, ↓reduceIte, bind_eq_ok, pure_apply,
        EStateM.Result.ok.injEq] at h
      obtain ⟨_, s₁, hcomma, a, s₂, ha, as, s₃, has, rfl, rfl⟩ := h
      obtain ⟨t, hrest, ht⟩ := yields_expectText hs (by decide) hcomma
      have hs₁ : s₁.Lexed := hs.tail hrest
      obtain ⟨ts, b, hrest₁, hL, hR⟩ := hi s₁ a s₂ hs₁ ha
      obtain ⟨us, bs, hrest₂, hLs, hRs⟩ := ih s₂ as s₃ (hs₁.after hrest₁) has
      refine ⟨t :: (ts ++ us), b :: bs, ?_, .cons ht hL hLs, .cons hR hRs⟩
      simp [hrest, hrest₁, hrest₂]

theorem yields_commaSeparated (hi : Yields item L R) :
    Yields (commaSeparated item ")") (Enclosed L) (List.Forall₂ R) := by
  intro s as s' hs h
  rw [commaSeparated, acceptText_bind] at h
  split at h
  · rename_i hpeek
    obtain ⟨t, hrest, ht⟩ := is_of_peek hs (by decide) hpeek
    simp only [↓reduceIte, pure_apply, EStateM.Result.ok.injEq] at h
    obtain ⟨rfl, rfl⟩ := h
    exact ⟨[t], [], hrest, .close ht, .nil⟩
  · simp only [Bool.false_eq_true, ↓reduceIte, bind_eq_ok, stream_bind, pure_apply,
      EStateM.Result.ok.injEq] at h
    obtain ⟨a, s₁, ha, as, s₂, has, rfl, rfl⟩ := h
    obtain ⟨ts, b, hrest, hL, hR⟩ := hi s a s₁ hs ha
    obtain ⟨us, bs, hrest₁, hLs, hRs⟩ := yields_listTail hi _ s₁ as s₂ (hs.after hrest) has
    refine ⟨ts ++ us, b :: bs, ?_, .items hL hLs, .cons hR hRs⟩
    rw [hrest, hrest₁, List.append_assoc]

end

/-! ## Expressions -/

theorem Yields.mono {p : Parse α} {L M : Phrase β} {R : α → β → Prop} (h : Yields p L R)
    (hLM : ∀ ts b, L ts b → M ts b) : Yields p M R := by
  intro s a s' hs ha
  obtain ⟨ts, b, hrest, hL, hR⟩ := h s a s' hs ha
  exact ⟨ts, b, hrest, hLM ts b hL, hR⟩

/-- A parser one level of nesting deeper. -/
theorem Yields.nested {p : Parse α} {L : Phrase β} {R : α → β → Prop} (h : Yields p L R) :
    Yields (nested p) L R := by
  intro s a s' hs ha
  obtain ⟨-, t, ht, rfl⟩ := nested_eq_ok.1 ha
  exact h s.deeper a t hs ht

theorem currentOffset_of_rest {t : Token} {ts : List Token} (h : s.rest = t :: ts) :
    s.stream.currentOffset = t.offset := by
  rw [TokenStream.currentOffset, TokenStream.next?, show s.stream.rest = t :: ts from h]
  rfl

theorem isTerminal_valueWords : ∀ w ∈ valueWords, isTerminal w.1 = true := by decide

theorem isName_of_noKeywordLiteral {t : Token} (h : NoKeywordLiteral s)
    (ht : s.stream.next? = some t) (hkind : t.kind = .identifier) : IsName t := by
  refine ⟨hkind, fun hmem => ?_⟩
  obtain ⟨w, hw, htext⟩ := List.mem_map.1 hmem
  have hpeek := h w hw
  simp [TokenStream.peek, ht, Token.Pattern.accepts, htext] at hpeek

/-- The phrases of the parser are expressions along their tokens. -/
abbrev YieldsAlong (p : Parse Expr) (L : Phrase Expr) : Prop := Yields p (Expr.Along L) Eq

/-- A new node that is known by the token whose offset it is given. -/
theorem knownBy_of_build {t : Token} {make : Node → Expr} {e : Expr}
    (h : build t.offset make s = .ok e s') (hnode : ∀ n, (make n).node = n)
    (hbinary : ∀ n, (make n).isBinary = false) :
    s'.rest = s.rest ∧ ∃ n, e = make n ∧ Expr.KnownBy t (make n) := by
  obtain ⟨rfl, -, rfl⟩ := build_eq_ok.1 h
  refine ⟨rfl, _, rfl, ?_⟩
  rw [Expr.KnownBy, hbinary, Bool.false_and, if_neg Bool.false_ne_true, Expr.offset, hnode]

section
variable {inner : Parse Expr} {L : Phrase Expr}

/-- The arguments after a name, if there are any. -/
theorem yields_arguments (hi : YieldsAlong inner L) (hs : s.Lexed)
    (hpeek : s.stream.peek (.text "(") = true) {es : List Expr}
    (h : arguments inner s.next = .ok es s') : ∃ ts, s.rest = ts ++ s'.rest ∧
      Led "(" (Enclosed L) ts (Expr.bareList es) ∧
      Led "(" (Enclosed (Expr.Spans Expr.KnownBy)) ts es := by
  obtain ⟨ts, bs, hrest, hL, hR⟩ :=
    led_of_peek (by decide) (yields_commaSeparated hi) hs hpeek h
  rw [List.forall₂_eq_eq_eq] at hR
  subst hR
  exact ⟨ts, hrest, Expr.along_arguments hL⟩

theorem yields_primary (hi : YieldsAlong inner L) : YieldsAlong (primary inner) (Primary L) := by
  intro s e s' hs h
  rcases primary_eq_ok h with ⟨w, hw, hpeek, hb⟩ | ⟨hno, hrest⟩
  · obtain ⟨t, hrest, ht⟩ := is_of_peek hs (isTerminal_valueWords w hw) hpeek
    rw [currentOffset_of_rest hrest] at hb
    obtain ⟨hrest', n, rfl, hknown⟩ := knownBy_of_build hb (fun _ => rfl) fun _ => rfl
    exact ⟨[t], _, by rw [hrest, hrest']; rfl, ⟨.word hw ht, .word hw ht hknown⟩, rfl⟩
  rcases hrest with ⟨t, value, ht, hlit, hvalue, hb⟩ | ⟨hpeek, e', s₁, s₂, he', hclose, hb⟩ |
    ⟨-, hpeek, hn⟩
  · obtain ⟨hrest', n, rfl, hknown⟩ := knownBy_of_build hb (fun _ => rfl) fun _ => rfl
    refine ⟨[t], _, by rw [rest_of_next? ht, hrest']; rfl, ⟨?_, ?_⟩, rfl⟩
    · exact .literal hlit hvalue
    · exact .literal hlit hvalue hknown
  · obtain ⟨t, hrest, ht⟩ := is_of_peek hs (by decide) hpeek
    rw [currentOffset_of_rest hrest] at hb
    obtain ⟨ts, _, hrest₁, ⟨hL, hspans⟩, rfl⟩ := hi s.next e' s₁ hs.next he'
    obtain ⟨t', hrest₂, ht'⟩ := yields_expectText (hs.next.after hrest₁) (by decide) hclose
    obtain ⟨hrest', n, rfl, hknown⟩ := knownBy_of_build hb (fun _ => rfl) fun _ => rfl
    refine ⟨t :: (ts ++ [t']), _, ?_, ⟨?_, ?_⟩, rfl⟩
    · simp [hrest, hrest₁, hrest₂, hrest']
    · exact .group ht hL ht'
    · exact .group ht hspans ht' hknown
  · rw [named, bind_eq_ok] at hn
    obtain ⟨x, s₁, hx, hn⟩ := hn
    obtain ⟨t, ht, hkind, rfl, rfl⟩ := expectName_eq_ok.1 hx
    have hname := isName_of_noKeywordLiteral hno ht hkind
    have hrest := rest_of_next? ht
    rw [currentOffset_of_rest hrest, acceptText_bind] at hn
    split at hn
    · rename_i hpeek'
      simp only [↓reduceIte, bind_eq_ok] at hn
      obtain ⟨es, s₂, hes, hb⟩ := hn
      obtain ⟨ts, hrest₁, hL, hspans⟩ := yields_arguments hi hs.next hpeek' hes
      obtain ⟨hrest', n, rfl, hknown⟩ := knownBy_of_build hb (fun _ => rfl) fun _ => rfl
      refine ⟨t :: ts, _, by rw [hrest, hrest₁, hrest']; rfl, ⟨?_, ?_⟩, rfl⟩
      · exact .call hname hL
      · exact .call hname hspans hknown
    · simp only [Bool.false_eq_true, ↓reduceIte] at hn
      obtain ⟨hrest', n, rfl, hknown⟩ := knownBy_of_build hn (fun _ => rfl) fun _ => rfl
      exact ⟨[t], _, by rw [hrest, hrest']; rfl, ⟨.var hname, .var hname hknown⟩, rfl⟩

/-- One more member of what has been read. -/
theorem yields_member (hi : YieldsAlong inner L) (hs : s.Lexed) {receiver e : Expr}
    (hpeek : s.stream.peek (.text ".") = true) (h : member inner receiver s.next = .ok e s')
    {ts : List Token} (hr : Expr.Along (Secondary L) ts receiver) :
    ∃ us, s.rest = us ++ s'.rest ∧ Expr.Along (Secondary L) (ts ++ us) e := by
  obtain ⟨hreceiver, hspans⟩ := hr
  obtain ⟨d, hrest, hd⟩ := is_of_peek hs (by decide) hpeek
  rw [member, bind_eq_ok] at h
  obtain ⟨t, s₁, ht, h⟩ := h
  obtain ⟨hnext, hkind, rfl⟩ := expect_eq_ok.1 ht
  have hkind : t.kind = .identifier := by simpa [Token.Pattern.accepts] using hkind
  have hrest₁ := rest_of_next? hnext
  have hid : Led "." Identifier [d, t] t.text := .intro hd (.intro hkind)
  rw [acceptText_bind] at h
  split at h
  · rename_i hpeek'
    simp only [↓reduceIte, bind_eq_ok] at h
    obtain ⟨es, s₂, hes, hbuild⟩ := h
    obtain ⟨vs, hrest₂, hL, hargs⟩ := yields_arguments hi hs.next.next hpeek' hes
    obtain ⟨hrest', n, rfl, hknown⟩ := knownBy_of_build hbuild (fun _ => rfl) fun _ => rfl
    refine ⟨[d, t] ++ vs, ?_, .methodCall hreceiver hid hL, ?_⟩
    · rw [hrest, hrest₁, hrest₂, hrest']
      rfl
    · exact .methodCall hspans hd hkind hargs hknown
  · simp only [Bool.false_eq_true, ↓reduceIte] at h
    obtain ⟨hrest', n, rfl, hknown⟩ := knownBy_of_build h (fun _ => rfl) fun _ => rfl
    refine ⟨[d, t], by rw [hrest, hrest₁, hrest']; rfl, .field hreceiver hid, ?_⟩
    exact .field hspans hd hkind hknown

theorem yields_members (hi : YieldsAlong inner L) (bound : List Token) {receiver e : Expr}
    {ts : List Token} (hs : s.Lexed) (hr : Expr.Along (Secondary L) ts receiver)
    (h : members inner bound receiver s = .ok e s') :
    ∃ us, s.rest = us ++ s'.rest ∧ Expr.Along (Secondary L) (ts ++ us) e := by
  induction bound generalizing s receiver ts with
  | nil =>
    simp only [members, pure_apply, EStateM.Result.ok.injEq] at h
    obtain ⟨rfl, rfl⟩ := h
    exact ⟨[], rfl, by rwa [List.append_nil]⟩
  | cons _ bound ih =>
    rw [members, acceptText_bind] at h
    split at h
    · rename_i hpeek
      simp only [↓reduceIte, bind_eq_ok] at h
      obtain ⟨e', s₁, he', h⟩ := h
      obtain ⟨us, hrest, hr'⟩ := yields_member hi hs hpeek he' hr
      obtain ⟨vs, hrest', he⟩ := ih (hs.after hrest) hr' h
      refine ⟨us ++ vs, ?_, ?_⟩
      · rw [hrest, hrest', List.append_assoc]
      · rwa [← List.append_assoc]
    · simp only [Bool.false_eq_true, ↓reduceIte, pure_apply, EStateM.Result.ok.injEq] at h
      obtain ⟨rfl, rfl⟩ := h
      exact ⟨[], rfl, by rwa [List.append_nil]⟩

theorem yields_secondary (hi : YieldsAlong inner L) :
    YieldsAlong (secondary inner) (Secondary L) := by
  intro s e s' hs h
  simp only [secondary, bind_eq_ok, stream_bind] at h
  obtain ⟨e₁, s₁, he₁, h⟩ := h
  obtain ⟨ts, _, hrest, ⟨hL, hspans⟩, rfl⟩ := yields_primary hi s e₁ s₁ hs he₁
  obtain ⟨us, hrest', he⟩ := yields_members hi _ (hs.after hrest) ⟨.primary hL, hspans⟩ h
  exact ⟨ts ++ us, e, by rw [hrest, hrest', List.append_assoc], he, rfl⟩

end

/-! ## Operators -/

section
variable {operators : List BinaryOperator} {operand : Parse Expr} {L : Phrase Expr}

/-- The operator that comes next is one of those looked for. -/
theorem is_of_peekOperator (hs : s.Lexed) (hterm : ∀ o ∈ operators, isTerminal o.text = true)
    {o : BinaryOperator} (h : peekOperator operators s = .ok (some o) s') :
    s' = s ∧ o ∈ operators ∧ ∃ t, s.rest = t :: s.next.rest ∧ t.Is o.text := by
  obtain ⟨rfl, ho⟩ := peekOperator_eq_ok.1 h
  obtain ⟨t, ht, hfind⟩ := Option.bind_eq_some_iff.1 ho.symm
  obtain ⟨hnext, -⟩ := Option.filter_eq_some_iff.1 ht
  have hmem := List.mem_of_find?_eq_some hfind
  have htext : o.text = t.text := by simpa using List.find?_some hfind
  have hrest := rest_of_next? hnext
  refine ⟨rfl, hmem, t, hrest, (hs t ?_).is htext.symm (hterm o hmem)⟩
  rw [hrest]
  exact List.mem_cons_self

/-- A binary operation takes its offset from its left operand. -/
theorem along_of_joined {left right joined : Expr} {o : BinaryOperator} {ts us : List Token}
    {t : Token} (hl : Expr.Along (Chain operators L) ts left) (hmem : o ∈ operators)
    (ht : t.Is o.text) (hr : Expr.Along L us right)
    (h : build left.offset (.binary · o left right) s = .ok joined s') :
    s'.rest = s.rest ∧ Expr.Along (Chain operators L) (ts ++ t :: us) joined := by
  obtain ⟨rfl, -, rfl⟩ := build_eq_ok.1 h
  obtain ⟨hleft, hspans⟩ := hl
  cases ts with
  | nil => exact absurd rfl hspans.ne_nil
  | cons t₀ ts =>
    exact ⟨rfl, .join hleft hmem (.intro ht hr.1), .binary hspans ht hr.2 hspans.offset_eq⟩

theorem yields_chain (hterm : ∀ o ∈ operators, isTerminal o.text = true)
    (ho : YieldsAlong operand L) (bound : List Token) {left e : Expr} {ts : List Token}
    (hs : s.Lexed) (hl : Expr.Along (Chain operators L) ts left)
    (h : chain operators operand bound left s = .ok e s') :
    ∃ us, s.rest = us ++ s'.rest ∧ Expr.Along (Chain operators L) (ts ++ us) e := by
  induction bound generalizing s left ts with
  | nil =>
    simp only [chain, pure_apply, EStateM.Result.ok.injEq] at h
    obtain ⟨rfl, rfl⟩ := h
    exact ⟨[], rfl, by rwa [List.append_nil]⟩
  | cons _ bound ih =>
    rw [chain, bind_eq_ok] at h
    obtain ⟨found, s₁, hfound, h⟩ := h
    cases found with
    | none =>
      obtain ⟨rfl, -⟩ := peekOperator_eq_ok.1 hfound
      simp only [pure_apply, EStateM.Result.ok.injEq] at h
      obtain ⟨rfl, rfl⟩ := h
      exact ⟨[], rfl, by rwa [List.append_nil]⟩
    | some o =>
      obtain ⟨rfl, hmem, t, hrest, ht⟩ := is_of_peekOperator hs hterm hfound
      simp only [advance_bind, bind_eq_ok] at h
      obtain ⟨right, s₂, hright, joined, s₃, hbuild, h⟩ := h
      obtain ⟨us, _, hrest₁, hr, rfl⟩ := ho s₁.next right s₂ hs.next hright
      obtain ⟨hrest₂, hjoined⟩ := along_of_joined hl hmem ht hr hbuild
      have hs₃ : s₃.Lexed := hs.next.after (hrest₁.trans (by rw [hrest₂]))
      obtain ⟨vs, hrest₃, he⟩ := ih hs₃ hjoined h
      refine ⟨t :: us ++ vs, ?_, ?_⟩
      · rw [hrest, hrest₁, ← hrest₂, hrest₃]
        simp
      · rwa [← List.append_assoc]

theorem yields_leftAssociative (operators : List BinaryOperator)
    (hterm : ∀ o ∈ operators, isTerminal o.text = true) (ho : YieldsAlong operand L) :
    YieldsAlong (leftAssociative operators operand) (Chain operators L) := by
  intro s e s' hs h
  simp only [leftAssociative, bind_eq_ok, stream_bind] at h
  obtain ⟨e₁, s₁, he₁, h⟩ := h
  obtain ⟨ts, _, hrest, ⟨hL, hspans⟩, rfl⟩ := ho s e₁ s₁ hs he₁
  obtain ⟨us, hrest', he⟩ := yields_chain hterm ho _ (hs.after hrest) ⟨.operand hL, hspans⟩ h
  exact ⟨ts ++ us, e, by rw [hrest, hrest', List.append_assoc], he, rfl⟩

end

theorem yields_logical {inner : Parse Expr} {L : Phrase Expr} (hi : YieldsAlong inner L) :
    YieldsAlong (logical inner) (Logical L) := by
  have hm := yields_leftAssociative [.mul, .div] (by decide) (yields_secondary hi)
  have ha := yields_leftAssociative [.add, .sub] (by decide) hm
  have hc := yields_leftAssociative
    [.less, .lessEqual, .greater, .greaterEqual, .equal, .notEqual] (by decide) ha
  exact yields_leftAssociative [.and, .or] (by decide) hc

/-- The parser of expressions yields expressions along the tokens that it moves past. -/
theorem yields_along (room : Nat) : YieldsAlong (expression room) (Expression room) := by
  induction room with
  | zero =>
    intro s e s' _ h
    simp [expression, tooDeep] at h
  | succ room ih =>
    intro s e s' hs h
    obtain ⟨ts, _, hrest, ⟨hL, hspans⟩, rfl⟩ := (yields_logical ih).nested s e s' hs h
    have hlow : e.height ≤ nestingLimit := (gives_expression (room + 1) s e s' h).self.2.2
    exact ⟨ts, e, hrest, ⟨⟨hL, e.height_bare.symm ▸ hlow⟩, hspans⟩, rfl⟩

theorem yields_expression (room : Nat) :
    Yields (expression room) (Expression room) Expr.Is := by
  intro s e s' hs h
  obtain ⟨ts, _, hrest, ⟨hL, -⟩, rfl⟩ := yields_along room s e s' hs h
  exact ⟨ts, e.bare, hrest, hL, rfl⟩

/-! ## Statements -/

section
variable {expression : Parse Expr} {statement : Parse Stmt} {L : Phrase Expr} {M : Phrase Stmt}
  {f : Expr → Expr}

/-- No terminator comes next. -/
theorem notMem_of_atEnd {ends : List String} {s : ParserState}
    (h : atEnd ends s = .ok false s') :
    s' = s ∧ ∃ t, s.rest = t :: s.next.rest ∧ t.text ∉ ends := by
  simp only [atEnd, stream_bind, pure_apply, EStateM.Result.ok.injEq, Bool.or_eq_false_iff,
    Option.isNone_eq_false_iff] at h
  obtain ⟨⟨hsome, hends⟩, rfl⟩ := h
  obtain ⟨t, ht⟩ := Option.isSome_iff_exists.1 hsome
  refine ⟨rfl, t, rest_of_next? ht, fun hmem => ?_⟩
  have hpeek := List.any_eq_false.1 hends t.text hmem
  simp [TokenStream.peek, ht, Token.Pattern.accepts] at hpeek

theorem yields_statementsUpTo {R : Stmt → Stmt → Prop} (hst : Yields statement M R)
    (ends : List String) (hM : ∀ ts b, M ts b → ts ≠ []) (bound : List Token) :
    Yields (statementsUpTo statement ends bound) (Block M ends) (List.Forall₂ R) := by
  induction bound with
  | nil =>
    intro s ss s' _ h
    simp only [statementsUpTo, pure_apply, EStateM.Result.ok.injEq] at h
    obtain ⟨rfl, rfl⟩ := h
    exact ⟨[], [], rfl, .nil, .nil⟩
  | cons _ bound ih =>
    intro s ss s' hs h
    rw [statementsUpTo, bind_eq_ok] at h
    obtain ⟨ended, s₁, hend, h⟩ := h
    cases ended with
    | true =>
      simp only [↓reduceIte, pure_apply, EStateM.Result.ok.injEq] at h
      obtain ⟨rfl, rfl⟩ := h
      have hstate : s₁ = s := by
        simp only [atEnd, stream_bind, pure_apply, EStateM.Result.ok.injEq] at hend
        exact hend.2.symm
      exact ⟨[], [], by rw [hstate]; rfl, .nil, .nil⟩
    | false =>
      obtain ⟨rfl, t, hrest, ht⟩ := notMem_of_atEnd hend
      simp only [Bool.false_eq_true, ↓reduceIte, bind_eq_ok, pure_apply,
        EStateM.Result.ok.injEq] at h
      obtain ⟨st, s₂, hst', ss', s₃, hss', rfl, rfl⟩ := h
      obtain ⟨ts, b, hrest₁, hb, hr⟩ := hst s₁ st s₂ hs hst'
      obtain ⟨us, bs, hrest₂, hbs, hrs⟩ := ih s₂ ss' s₃ (hs.after hrest₁) hss'
      cases ts with
      | nil => exact absurd rfl (hM _ _ hb)
      | cons u ts =>
        have hut : u = t := by
          rw [hrest, List.cons_append] at hrest₁
          exact (List.cons.inj hrest₁).1.symm
        subst hut
        refine ⟨u :: (ts ++ us), b :: bs, ?_, .cons ht hb hbs, .cons hr hrs⟩
        rw [hrest₁, hrest₂]
        simp

theorem yields_block {R : Stmt → Stmt → Prop} (hst : Yields statement M R) (ends : List String)
    (hM : ∀ ts b, M ts b → ts ≠ []) :
    Yields (block statement ends) (Block M ends) (List.Forall₂ R) := by
  intro s ss s' hs h
  rw [block, stream_bind] at h
  exact yields_statementsUpTo hst ends hM _ s ss s' hs h

/-- A terminal and what follows it. -/
theorem yields_led {α β : Type} {p : Parse α} {L : Phrase β} {R : α → β → Prop}
    {text expected : String} {u : Unit} {s₁ : ParserState} {a : α}
    (hterm : isTerminal text = true) (hp : Yields p L R) (hs : s.Lexed)
    (h : expectText text expected s = .ok u s₁) (ha : p s₁ = .ok a s') :
    ∃ ts b, s.rest = ts ++ s'.rest ∧ Led text L ts b ∧ R a b := by
  obtain ⟨t, hrest, ht⟩ := yields_expectText hs hterm h
  obtain ⟨ts, b, hrest', hb, hr⟩ := hp s₁ a s' (hs.tail hrest) ha
  exact ⟨t :: ts, b, by rw [hrest, hrest']; rfl, .intro ht hb, hr⟩

theorem yields_declaration (he : Yields expression L fun e b => f e = b) :
    Yields (declaration expression) (DeclarationRest L) fun d b => d.outline f = b := by
  intro s d s' hs h
  simp only [declaration, stream_bind, bind_eq_ok, freshId_bind, pure_apply,
    EStateM.Result.ok.injEq] at h
  obtain ⟨x, s₁, hx, type, s₂, htype, value, s₃, hvalue, _, s₄, hsemi, rfl, rfl⟩ := h
  obtain ⟨us, y, hrest₁, hL₁, rfl⟩ := yields_expectName s x s₁ hs hx
  have hs₁ := hs.after hrest₁
  obtain ⟨vs, type', hrest₂, hL₂, hr₂⟩ :=
    yields_optionalAfter (by decide) yields_expectName s₁ type s₂ hs₁ htype
  have hs₂ := hs₁.after hrest₂
  obtain ⟨ws, value', hrest₃, hL₃, hr₃⟩ :=
    yields_optionalAfter (by decide) he s₂ value s₃ hs₂ hvalue
  obtain ⟨t, hrest₄, ht⟩ := yields_expectText (hs₂.after hrest₃) (by decide) hsemi
  refine ⟨us ++ (vs ++ (ws ++ [t])), _, ?_, .intro hL₁ hL₂ hL₃ ht, ?_⟩
  · rw [hrest₁, hrest₂, hrest₃, hrest₄]
    simp
  · simp only [Declaration.outline, eq_of_rel hr₂, map_eq_of_rel hr₃]

theorem yields_branch (he : Yields expression L fun e b => f e = b)
    (hst : Yields statement M fun s b => s.outline f = b) (hM : ∀ ts b, M ts b → ts ≠ []) :
    Yields (branch expression statement) (BranchRest L M) fun s b => s.outline f = b := by
  intro s st s' hs h
  simp only [branch, bind_eq_ok, pure_apply, EStateM.Result.ok.injEq] at h
  obtain ⟨c, s₁, hc, _, s₂, hdo, ss, s₃, hss, ss', s₄, hss', _, s₅, hend, rfl, rfl⟩ := h
  obtain ⟨us, c', hrest₁, hL₁, hr₁⟩ := he s c s₁ hs hc
  have hs₁ := hs.after hrest₁
  obtain ⟨vs, bs, hrest₂, hL₂, hr₂⟩ :=
    yields_led (by decide) (yields_block hst ["ELSE", "END"] hM) hs₁ hdo hss
  have hs₃ := hs₁.after hrest₂
  obtain ⟨ws, bs', hrest₃, hL₃, hr₃⟩ :=
    yields_optionalAfter (by decide) (yields_block hst ["END"] hM) s₃ ss' s₄ hs₃ hss'
  obtain ⟨t, hrest₄, ht⟩ := yields_expectText (hs₃.after hrest₃) (by decide) hend
  refine ⟨us ++ (vs ++ (ws ++ [t])), _, ?_, .intro hL₁ hL₂ hL₃ ht, ?_⟩
  · rw [hrest₁, hrest₂, hrest₃, hrest₄]
    simp
  · simp only [Stmt.outline, hr₁, Stmt.outlineList_eq_map, map_eq_of_forall₂ hr₂]
    cases hr₃ with
    | none => rfl
    | some hrs => simp only [Option.getD_some, map_eq_of_forall₂ hrs]

theorem yields_forEach (he : Yields expression L fun e b => f e = b)
    (hst : Yields statement M fun s b => s.outline f = b) (hM : ∀ ts b, M ts b → ts ≠ []) :
    Yields (forEach expression statement) (ForRest L M) fun s b => s.outline f = b := by
  intro s st s' hs h
  simp only [forEach, bind_eq_ok, pure_apply, EStateM.Result.ok.injEq] at h
  obtain ⟨x, s₁, hx, _, s₂, hin, e, s₃, he', _, s₄, hdo, ss, s₅, hss, _, s₆, hend, rfl, rfl⟩ := h
  obtain ⟨us, y, hrest₁, hL₁, rfl⟩ := yields_expectName s x s₁ hs hx
  have hs₁ := hs.after hrest₁
  obtain ⟨vs, b, hrest₂, hL₂, hr₂⟩ := yields_led (by decide) he hs₁ hin he'
  have hs₃ := hs₁.after hrest₂
  obtain ⟨ws, bs, hrest₃, hL₃, hr₃⟩ :=
    yields_led (by decide) (yields_block hst ["END"] hM) hs₃ hdo hss
  obtain ⟨t, hrest₄, ht⟩ := yields_expectText (hs₃.after hrest₃) (by decide) hend
  refine ⟨us ++ (vs ++ (ws ++ [t])), _, ?_, .intro hL₁ hL₂ hL₃ ht, ?_⟩
  · rw [hrest₁, hrest₂, hrest₃, hrest₄]
    simp
  · simp only [Stmt.outline, hr₂, Stmt.outlineList_eq_map, map_eq_of_forall₂ hr₃]

theorem yields_loop (he : Yields expression L fun e b => f e = b)
    (hst : Yields statement M fun s b => s.outline f = b) (hM : ∀ ts b, M ts b → ts ≠ []) :
    Yields (loop expression statement) (WhileRest L M) fun s b => s.outline f = b := by
  intro s st s' hs h
  simp only [loop, bind_eq_ok, pure_apply, EStateM.Result.ok.injEq] at h
  obtain ⟨c, s₁, hc, _, s₂, hdo, ss, s₃, hss, _, s₄, hend, rfl, rfl⟩ := h
  obtain ⟨us, c', hrest₁, hL₁, hr₁⟩ := he s c s₁ hs hc
  have hs₁ := hs.after hrest₁
  obtain ⟨vs, bs, hrest₂, hL₂, hr₂⟩ :=
    yields_led (by decide) (yields_block hst ["END"] hM) hs₁ hdo hss
  obtain ⟨t, hrest₃, ht⟩ := yields_expectText (hs₁.after hrest₂) (by decide) hend
  refine ⟨us ++ (vs ++ [t]), _, ?_, .intro hL₁ hL₂ ht, ?_⟩
  · rw [hrest₁, hrest₂, hrest₃]
    simp
  · simp only [Stmt.outline, hr₁, Stmt.outlineList_eq_map, map_eq_of_forall₂ hr₂]

theorem yields_ret (he : Yields expression L fun e b => f e = b) :
    Yields (ret expression) (ReturnRest L) fun s b => s.outline f = b := by
  intro s st s' hs h
  simp only [ret, stream_bind, bind_eq_ok, pure_apply, EStateM.Result.ok.injEq] at h
  obtain ⟨e, s₁, he', _, s₂, hsemi, rfl, rfl⟩ := h
  obtain ⟨us, b, hrest₁, hL, hr⟩ := he s e s₁ hs he'
  obtain ⟨t, hrest₂, ht⟩ := yields_expectText (hs.after hrest₁) (by decide) hsemi
  refine ⟨us ++ [t], _, ?_, .intro hL ht, ?_⟩
  · rw [hrest₁, hrest₂]
    simp
  · simp only [Stmt.outline, hr]

theorem yields_expressionOrAssignment (he : Yields expression L fun e b => f e = b) :
    Yields (expressionOrAssignment expression) (ExpressionOrAssignment L)
      fun s b => s.outline f = b := by
  intro s st s' hs h
  simp only [expressionOrAssignment, bind_eq_ok] at h
  obtain ⟨e, s₁, he', value, s₂, hvalue, _, s₃, hsemi, h⟩ := h
  obtain ⟨us, b, hrest₁, hL, hr⟩ := he s e s₁ hs he'
  have hs₁ := hs.after hrest₁
  obtain ⟨vs, value', hrest₂, hL₂, hr₂⟩ :=
    yields_optionalAfter (by decide) he s₁ value s₂ hs₁ hvalue
  obtain ⟨t, hrest₃, ht⟩ := yields_expectText (hs₁.after hrest₂) (by decide) hsemi
  cases hr₂ with
  | none =>
    cases hL₂
    simp only [pure_apply, EStateM.Result.ok.injEq] at h
    obtain ⟨rfl, rfl⟩ := h
    refine ⟨us ++ [t], _, ?_, .expression hL ht, by simp only [Stmt.outline, hr]⟩
    rw [hrest₁, hrest₂, hrest₃]
    simp
  | some hrv =>
    cases hL₂ with
    | some hL₂ =>
      simp only [pure_apply, EStateM.Result.ok.injEq] at h
      obtain ⟨rfl, rfl⟩ := h
      refine ⟨us ++ (vs ++ [t]), _, ?_, .assignment hL hL₂ ht, ?_⟩
      · rw [hrest₁, hrest₂, hrest₃]
        simp
      · simp only [Stmt.outline, hr, hrv]

theorem ne_of_peek {text : String} {t : Token} {ts : List Token}
    (h : ¬s.stream.peek (.text text) = true) (hrest : s.rest = t :: ts) : t.text ≠ text := by
  intro htext
  have hnext : s.stream.next? = some t := by
    change s.rest.head? = some t
    rw [hrest]
    rfl
  exact h (by simp [TokenStream.peek, hnext, Token.Pattern.accepts, htext])

theorem expressionOrAssignment_ne_nil {ts : List Token} {b : Stmt}
    (h : ExpressionOrAssignment L ts b) : ts ≠ [] := by
  cases h with
  | expression _ _ => simp
  | assignment _ _ _ => simp

theorem yields_statementOf (he : Yields expression L fun e b => f e = b)
    (hst : Yields statement M fun s b => s.outline f = b) (hM : ∀ ts b, M ts b → ts ≠ []) :
    Yields (statementOf expression statement) (StatementOf L M) fun s b => s.outline f = b := by
  intro s st s' hs h
  rw [statementOf, acceptText_bind] at h
  split at h
  · rename_i hlet
    simp only [↓reduceIte, bind_eq_ok, pure_apply, EStateM.Result.ok.injEq] at h
    obtain ⟨d, s₁, hd, rfl, rfl⟩ := h
    obtain ⟨ts, b, hrest, hL, hr⟩ := led_of_peek (by decide) (yields_declaration he) hs hlet hd
    exact ⟨ts, _, hrest, .declaration hL, by simp only [Stmt.outline, hr]⟩
  rename_i hlet
  simp only [Bool.false_eq_true, ↓reduceIte, acceptText_bind] at h
  split at h
  · rename_i hif
    obtain ⟨ts, b, hrest, hL, hr⟩ := led_of_peek (by decide) (yields_branch he hst hM) hs hif h
    exact ⟨ts, _, hrest, .branch hL, hr⟩
  rename_i hif
  split at h
  · rename_i hfor
    obtain ⟨ts, b, hrest, hL, hr⟩ := led_of_peek (by decide) (yields_forEach he hst hM) hs hfor h
    exact ⟨ts, _, hrest, .forEach hL, hr⟩
  rename_i hfor
  split at h
  · rename_i hwhile
    obtain ⟨ts, b, hrest, hL, hr⟩ := led_of_peek (by decide) (yields_loop he hst hM) hs hwhile h
    exact ⟨ts, _, hrest, .loop hL, hr⟩
  rename_i hwhile
  split at h
  · rename_i hreturn
    obtain ⟨ts, b, hrest, hL, hr⟩ := led_of_peek (by decide) (yields_ret he) hs hreturn h
    exact ⟨ts, _, hrest, .ret hL, hr⟩
  rename_i hreturn
  obtain ⟨ts, b, hrest, hL, hr⟩ := yields_expressionOrAssignment he s st s' hs h
  cases ts with
  | nil => exact absurd rfl (expressionOrAssignment_ne_nil hL)
  | cons t ts =>
    refine ⟨t :: ts, b, hrest, .other ?_ hL, hr⟩
    simp only [statementWords, List.mem_cons, List.not_mem_nil, or_false, not_or]
    exact ⟨ne_of_peek hlet hrest, ne_of_peek hif hrest, ne_of_peek hfor hrest,
      ne_of_peek hwhile hrest, ne_of_peek hreturn hrest⟩

end

theorem statementOf_ne_nil {L : Phrase Expr} {M : Phrase Stmt} {ts : List Token} {b : Stmt}
    (h : StatementOf L M ts b) : ts ≠ [] := by
  cases h with
  | declaration h | branch h | forEach h | loop h | ret h =>
    cases h
    simp
  | other _ _ => simp

theorem statement_ne_nil {room : Nat} {ts : List Token} {b : Stmt} (h : Statement room ts b) :
    ts ≠ [] := by
  cases room with
  | zero => exact h.elim
  | succ room => exact statementOf_ne_nil h

/-- Statements with expressions of any kind that the parser yields. -/
theorem yields_statements {f : Expr → Expr} {E : Nat → Phrase Expr} {S : Nat → Phrase Stmt}
    (he : ∀ room, Yields (expression room) (E room) fun e b => f e = b)
    (hS : ∀ room ts b, StatementOf (E room) (S room) ts b → S (room + 1) ts b)
    (hne : ∀ room ts b, S room ts b → ts ≠ []) (room : Nat) :
    Yields (statement room) (S room) fun s b => s.outline f = b := by
  induction room with
  | zero =>
    intro s st s' _ h
    simp [statement, tooDeep] at h
  | succ room ih => exact (yields_statementOf (he room) ih (hne room)).nested.mono (hS room)

/-! ## Programs -/

theorem yields_field {f : Expr → Expr} {L : Phrase Expr}
    (he : Yields (expression nestingLimit) L fun e b => f e = b) :
    Yields field (FieldOf L) fun d b => d.outline f = b := by
  intro s d s' hs h
  simp only [field, stream_bind, bind_eq_ok, freshId_bind, pure_apply,
    EStateM.Result.ok.injEq] at h
  obtain ⟨x, s₁, hx, _, s₂, hcolon, type, s₃, htype, value, s₄, hvalue, _, s₅, hsemi, rfl, rfl⟩ :=
    h
  obtain ⟨us, y, hrest₁, hL₁, rfl⟩ := yields_expectName s x s₁ hs hx
  have hs₁ := hs.after hrest₁
  obtain ⟨vs, type', hrest₂, hL₂, rfl⟩ := yields_led (by decide) yields_expectName hs₁ hcolon htype
  have hs₃ := hs₁.after hrest₂
  obtain ⟨ws, value', hrest₃, hL₃, hr₃⟩ :=
    yields_optionalAfter (by decide) he s₃ value s₄ hs₃ hvalue
  obtain ⟨t, hrest₄, ht⟩ := yields_expectText (hs₃.after hrest₃) (by decide) hsemi
  refine ⟨us ++ (vs ++ (ws ++ [t])), _, ?_, .intro hL₁ hL₂ hL₃ ht, ?_⟩
  · change s.rest = _ ++ s₅.rest
    rw [hrest₁, hrest₂, hrest₃, hrest₄]
    simp
  · simp only [Field.outline, map_eq_of_rel hr₃]

theorem yields_parameter : Yields parameter ParameterRule Eq := by
  intro s p s' hs h
  simp only [parameter, bind_eq_ok, pure_apply, EStateM.Result.ok.injEq] at h
  obtain ⟨x, s₁, hx, type, s₂, htype, rfl, rfl⟩ := h
  obtain ⟨us, y, hrest₁, hL₁, rfl⟩ := yields_expectName s x s₁ hs hx
  obtain ⟨vs, type', hrest₂, hL₂, hr₂⟩ :=
    yields_optionalAfter (by decide) yields_expectName s₁ type s₂ (hs.after hrest₁) htype
  refine ⟨us ++ vs, _, by rw [hrest₁, hrest₂, List.append_assoc], .intro hL₁ hL₂, ?_⟩
  rw [eq_of_rel hr₂]

theorem yields_method {f : Expr → Expr} {M : Phrase Stmt}
    (hst : Yields (statement nestingLimit) M fun s b => s.outline f = b)
    (hM : ∀ ts b, M ts b → ts ≠ []) :
    Yields method (MethodOf M) fun m b => m.outline f = b := by
  intro s m s' hs h
  simp only [method, stream_bind, bind_eq_ok, freshId_bind, pure_apply,
    EStateM.Result.ok.injEq] at h
  obtain ⟨x, s₁, hx, _, s₂, hopen, ps, s₃, hps, type, s₄, htype, _, s₅, hdo, ss, s₆, hss, _, s₇,
    hend, rfl, rfl⟩ := h
  obtain ⟨us, y, hrest₁, hL₁, rfl⟩ := yields_expectName s x s₁ hs hx
  have hs₁ := hs.after hrest₁
  obtain ⟨vs, ps', hrest₂, hL₂, hr₂⟩ :=
    yields_led (by decide) (yields_commaSeparated yields_parameter) hs₁ hopen hps
  have hs₃ := hs₁.after hrest₂
  obtain ⟨ws, type', hrest₃, hL₃, hr₃⟩ :=
    yields_optionalAfter (by decide) yields_expectName s₃ type s₄ hs₃ htype
  have hs₄ := hs₃.after hrest₃
  obtain ⟨xs, bs, hrest₄, hL₄, hr₄⟩ := yields_led (by decide)
    (yields_block hst ["END"] hM) hs₄ hdo hss
  obtain ⟨t, hrest₅, ht⟩ := yields_expectText (hs₄.after hrest₄) (by decide) hend
  refine ⟨us ++ (vs ++ (ws ++ (xs ++ [t]))), _, ?_, .intro hL₁ hL₂ hL₃ hL₄ ht, ?_⟩
  · change s.rest = _ ++ s₇.rest
    rw [hrest₁, hrest₂, hrest₃, hrest₄, hrest₅]
    simp
  · rw [List.forall₂_eq_eq_eq] at hr₂
    simp only [Method.outline, hr₂, eq_of_rel hr₃, Stmt.outlineList_eq_map, map_eq_of_forall₂ hr₄]

theorem yields_manyAfter {text : String} {p : Parse α} {L : Phrase β} {R : α → β → Prop}
    (hterm : isTerminal text = true) (hp : Yields p L R) (bound : List Token) :
    Yields (manyAfter text p bound) (Many (Led text L)) (List.Forall₂ R) := by
  induction bound with
  | nil =>
    intro s as s' _ h
    simp only [manyAfter, pure_apply, EStateM.Result.ok.injEq] at h
    obtain ⟨rfl, rfl⟩ := h
    exact ⟨[], [], rfl, .nil, .nil⟩
  | cons _ bound ih =>
    intro s as s' hs h
    rw [manyAfter, bind_eq_ok] at h
    obtain ⟨found, s₁, hfound, h⟩ := h
    obtain ⟨ts, b, hrest, hL, hR⟩ := yields_optionalAfter hterm hp s found s₁ hs hfound
    cases hR with
    | none =>
      cases hL
      simp only [pure_apply, EStateM.Result.ok.injEq] at h
      obtain ⟨rfl, rfl⟩ := h
      exact ⟨[], [], hrest, .nil, .nil⟩
    | some hr =>
      cases hL with
      | some hL =>
        simp only [bind_eq_ok, pure_apply, EStateM.Result.ok.injEq] at h
        obtain ⟨as', s₂, has', rfl, rfl⟩ := h
        obtain ⟨us, bs, hrest', hLs, hRs⟩ := ih s₁ as' s₂ (hs.after hrest) has'
        exact ⟨ts ++ us, _, by rw [hrest, hrest', List.append_assoc], .cons hL hLs, .cons hr hRs⟩

/-- Programs with expressions and statements of any kind that the parsers yield. -/
theorem yields_sourceOf {f : Expr → Expr} {L : Phrase Expr} {M : Phrase Stmt}
    (he : Yields (expression nestingLimit) L fun e b => f e = b)
    (hst : Yields (statement nestingLimit) M fun s b => s.outline f = b)
    (hM : ∀ ts b, M ts b → ts ≠ []) {s' : ParserState} {p : Source} (hs : s.Lexed)
    (h : source s = .ok p s') : SourceOf L M s.rest (p.outline f) := by
  simp only [source, stream_bind, bind_eq_ok] at h
  obtain ⟨fs, s₁, hfs, ms, s₂, hms, h⟩ := h
  obtain ⟨us, bs, hrest₁, hL₁, hr₁⟩ :=
    yields_manyAfter (by decide) (yields_field he) _ s fs s₁ hs hfs
  obtain ⟨vs, cs, hrest₂, hL₂, hr₂⟩ :=
    yields_manyAfter (by decide) (yields_method hst hM) _ s₁ ms s₂ (hs.after hrest₁) hms
  cases hnext : s₂.stream.next? with
  | some t => simp [hnext] at h
  | none =>
    simp only [hnext, pure_apply, EStateM.Result.ok.injEq] at h
    obtain ⟨rfl, rfl⟩ := h
    have hnil : s₂.rest = [] := List.head?_eq_none_iff.1 hnext
    rw [hrest₁, hrest₂, hnil, List.append_nil, Source.outline, map_eq_of_forall₂ hr₁,
      map_eq_of_forall₂ hr₂]
    exact .intro hL₁ hL₂

/-- **Whatever is accepted is derived.** -/
theorem yields_source {s' : ParserState} {p : Source} (hs : s.Lexed)
    (h : source s = .ok p s') : SourceRule nestingLimit s.rest p.bare := by
  have hst := yields_statements yields_expression (S := Statement) (fun _ _ _ h => h)
    (fun _ _ _ h => statement_ne_nil h) nestingLimit
  have hsource := yields_sourceOf (yields_expression nestingLimit) hst
    (fun _ _ h => statement_ne_nil h) hs h
  rwa [Source.outline_bare] at hsource

end Parse

end TinyScript
