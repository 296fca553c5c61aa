import TinyScript.Proofs.Outcome
import TinyScript.Proofs.Tree.Grammar
import TinyScript.Tree.SourceParser

/-
  What the primitive parsers do.

  A parser that looks at the next token leaves the state alone or moves past that
  one token; only `freshId` and `build` hand out identities, only `build` records a
  height, and only `nested` opens a level.
-/

namespace TinyScript

namespace ParserState

/-- The state one token further. -/
def next (s : ParserState) : ParserState := { s with stream := s.stream.advance }

/-- The state with one more identity handed out. -/
def bump (s : ParserState) : ParserState := { s with nextId := s.nextId + 1 }

/-- The tokens ahead. -/
def rest (s : ParserState) : List Token := s.stream.rest

section
variable (s : ParserState) (h : Nat)

@[simp] theorem nextId_next : s.next.nextId = s.nextId := rfl

@[simp] theorem nextId_bump : s.bump.nextId = s.nextId + 1 := rfl

@[simp] theorem nextId_record : (s.record h).nextId = s.nextId + 1 := rfl

@[simp] theorem nextId_deeper : s.deeper.nextId = s.nextId := rfl

@[simp] theorem nextId_shallower : s.shallower.nextId = s.nextId := rfl

@[simp] theorem rest_next : s.next.rest = s.rest.tail := rfl

@[simp] theorem rest_bump : s.bump.rest = s.rest := rfl

@[simp] theorem rest_record : (s.record h).rest = s.rest := rfl

@[simp] theorem rest_deeper : s.deeper.rest = s.rest := rfl

@[simp] theorem rest_shallower : s.shallower.rest = s.rest := rfl

@[simp] theorem depth_next : s.next.depth = s.depth := rfl

@[simp] theorem depth_bump : s.bump.depth = s.depth := rfl

@[simp] theorem depth_record : (s.record h).depth = s.depth := rfl

@[simp] theorem depth_deeper : s.deeper.depth = s.depth + 1 := rfl

@[simp] theorem depth_shallower : s.shallower.depth = s.depth - 1 := rfl

theorem getElem?_heights_record (id : Nat) :
    (s.record h).heights[id]? = if s.nextId = id then some h else s.heights[id]? := by
  simp [record, Std.ExtTreeMap.getElem?_insert]

end

end ParserState

namespace Parse

variable {α β : Type} {s s' : ParserState}

@[simp] theorem stream_apply (s : ParserState) : stream s = .ok s.stream s := rfl

@[simp] theorem stream_bind (k : TokenStream → Parse β) (s : ParserState) :
    (stream >>= k) s = k s.stream s := rfl

@[simp] theorem advance_apply (s : ParserState) : advance s = .ok () s.next := rfl

@[simp] theorem advance_bind (k : Unit → Parse β) (s : ParserState) :
    (advance >>= k) s = k () s.next := rfl

@[simp] theorem peek_bind (p : Token.Pattern) (k : Bool → Parse β) (s : ParserState) :
    (peek p >>= k) s = k (s.stream.peek p) s := rfl

@[simp] theorem freshId_bind (k : Nat → Parse β) (s : ParserState) :
    (freshId >>= k) s = k s.nextId s.bump := rfl

theorem accept_apply (p : Token.Pattern) (s : ParserState) :
    accept p s = if s.stream.peek p then .ok true s.next else .ok false s := by
  rw [accept, peek_bind]
  split <;> rfl

/-- A choice by whether the next token has a text. -/
theorem acceptText_bind (text : String) (k : Bool → Parse β) (s : ParserState) :
    (acceptText text >>= k) s =
      if s.stream.peek (.text text) then k true s.next else k false s := by
  have h := accept_apply (.text text) s
  rw [acceptText]
  split
  · rename_i hp
    rw [if_pos hp] at h
    exact bind_of_ok h
  · rename_i hp
    rw [if_neg hp] at h
    exact bind_of_ok h

theorem expect_eq_ok {p : Token.Pattern} {expected : String} {t : Token} :
    expect p expected s = .ok t s' ↔
      s.stream.next? = some t ∧ p.accepts t = true ∧ s' = s.next := by
  rw [expect, stream_bind]
  cases hn : s.stream.next? with
  | none => simp
  | some u =>
    simp only [Option.some.injEq]
    by_cases hp : p.accepts u = true
    · rw [if_pos hp, advance_bind]
      simp only [pure_apply, EStateM.Result.ok.injEq]
      constructor
      · rintro ⟨rfl, rfl⟩
        exact ⟨rfl, hp, rfl⟩
      · rintro ⟨rfl, -, rfl⟩
        exact ⟨rfl, rfl⟩
    · rw [if_neg hp]
      simp only [throw_apply, reduceCtorEq, false_iff, not_and]
      rintro rfl hu
      exact absurd hu hp

theorem expectText_eq_ok {text expected : String} {u : Unit} :
    expectText text expected s = .ok u s' ↔
      ∃ t, s.stream.next? = some t ∧ t.text = text ∧ s' = s.next := by
  rw [expectText, discard_eq_ok]
  simp only [expect_eq_ok, Token.Pattern.accepts, beq_iff_eq]

theorem expectName_eq_ok {expected name : String} :
    expectName expected s = .ok name s' ↔
      ∃ t, s.stream.next? = some t ∧ t.kind = .identifier ∧ t.text = name ∧ s' = s.next := by
  rw [expectName, bind_eq_ok]
  simp only [expect_eq_ok, Token.Pattern.accepts, beq_iff_eq, pure_apply, EStateM.Result.ok.injEq]
  constructor
  · rintro ⟨t, _, ⟨hn, hk, rfl⟩, rfl, rfl⟩
    exact ⟨t, hn, hk, rfl, rfl⟩
  · rintro ⟨t, hn, hk, rfl, rfl⟩
    exact ⟨t, _, ⟨hn, hk, rfl⟩, rfl, rfl⟩

theorem build_apply (offset : Nat) (make : Node → Expr) (s : ParserState) :
    build offset make s =
      if nestingLimit < s.nodeHeight (make ⟨s.nextId, offset⟩) then
        .error (.nestingTooDeep nestingLimit offset) s
      else .ok (make ⟨s.nextId, offset⟩) (s.record (s.nodeHeight (make ⟨s.nextId, offset⟩))) := by
  rw [build, get_bind]
  split <;> rfl

theorem build_eq_ok {offset : Nat} {make : Node → Expr} {e : Expr} :
    build offset make s = .ok e s' ↔
      e = make ⟨s.nextId, offset⟩ ∧ s.nodeHeight e ≤ nestingLimit ∧
        s' = s.record (s.nodeHeight e) := by
  rw [build_apply]
  split
  · rename_i h
    simp only [reduceCtorEq, false_iff, not_and]
    rintro rfl h'
    omega
  · rename_i h
    simp only [EStateM.Result.ok.injEq]
    constructor
    · rintro ⟨rfl, rfl⟩
      exact ⟨rfl, by omega, rfl⟩
    · rintro ⟨rfl, -, rfl⟩
      exact ⟨rfl, rfl⟩

/-- A level is opened where one is left, and closed again. -/
theorem nested_eq_ok {p : Parse α} {a : α} :
    nested p s = .ok a s' ↔
      s.depth ≠ nestingLimit ∧ ∃ t, p s.deeper = .ok a t ∧ s' = t.shallower := by
  rw [nested]
  split
  · rename_i h
    simp [tooDeep, h]
  · rename_i h
    cases hp : p s.deeper with
    | error e t => simp
    | ok b t =>
      simp only [EStateM.Result.ok.injEq, ne_eq, h, not_false_eq_true, true_and]
      constructor
      · rintro ⟨rfl, rfl⟩
        exact ⟨t, ⟨rfl, rfl⟩, rfl⟩
      · rintro ⟨_, ⟨rfl, rfl⟩, rfl⟩
        exact ⟨rfl, rfl⟩

theorem nested_of_limit {p : Parse α} (h : s.depth = nestingLimit) : nested p s = tooDeep s :=
  if_pos h

theorem nested_of_error {p : Parse α} {e : ParseError} (hdepth : s.depth ≠ nestingLimit)
    (h : p s.deeper = .error e s') : nested p s = .error e s'.shallower := by
  rw [nested, if_neg hdepth, h]

/-- Looking for an operator leaves the state alone. -/
theorem peekOperator_eq_ok {operators : List BinaryOperator} {o : Option BinaryOperator} :
    peekOperator operators s = .ok o s' ↔
      s' = s ∧ o = (s.stream.next?.filter fun t => t.kind = .identifier ∨ t.kind = .operator).bind
        fun t => operators.find? fun o => o.text == t.text := by
  rw [peekOperator, stream_bind]
  cases s.stream.next? with
  | none => simp [eq_comm, and_comm]
  | some t =>
    obtain ⟨kind, text, offset⟩ := t
    cases kind <;> simp [Option.filter, eq_comm, and_comm]

/-- What follows an optional leading token. -/
theorem optionalAfter_eq_ok {text : String} {p : Parse α} {a : Option α} :
    optionalAfter text p s = .ok a s' ↔
      (s.stream.peek (.text text) = false ∧ a = none ∧ s' = s) ∨
        (s.stream.peek (.text text) = true ∧ ∃ b, a = some b ∧ p s.next = .ok b s') := by
  rw [optionalAfter, acceptText_bind]
  cases hp : s.stream.peek (.text text) with
  | false =>
    simp only [Bool.false_eq_true, ↓reduceIte, pure_apply, EStateM.Result.ok.injEq, true_and,
      false_and, or_false]
    constructor
    · rintro ⟨rfl, rfl⟩
      exact ⟨rfl, rfl⟩
    · rintro ⟨rfl, rfl⟩
      exact ⟨rfl, rfl⟩
  | true =>
    simp only [↓reduceIte, bind_eq_ok, pure_apply, EStateM.Result.ok.injEq, reduceCtorEq,
      false_and, false_or, true_and]
    constructor
    · rintro ⟨b, t, hb, rfl, rfl⟩
      exact ⟨b, rfl, hb⟩
    · rintro ⟨b, rfl, hb⟩
      exact ⟨b, s', hb, rfl, rfl⟩

theorem onTokens_eq_ok {p : Parse α} {tokens : List Token} {a : α} :
    p.onTokens tokens = .ok a ↔ ∃ s, p (.ofTokens tokens) = .ok a s := by
  rw [onTokens, EStateM.run]
  cases p (.ofTokens tokens) <;> simp

theorem onTokens_eq_error {p : Parse α} {tokens : List Token} {e : ParseError} :
    p.onTokens tokens = .error e ↔ ∃ s, p (.ofTokens tokens) = .error e s := by
  rw [onTokens, EStateM.run]
  cases p (.ofTokens tokens) <;> simp

/-! ## Primary expressions -/

/-- The next token is none of the keywords that stand for a value. -/
def NoKeywordLiteral (s : ParserState) : Prop :=
  ∀ k ∈ Grammar.valueWords, s.stream.peek (.text k.1) = false

/-- A primary expression that is no keyword. -/
theorem primary_of_noKeywordLiteral {inner : Parse Expr} (h : NoKeywordLiteral s) :
    primary inner s =
      match s.stream.next?.filter Token.isLiteral with
      | some t => literal t s
      | none =>
        if s.stream.peek (.text "(") then
          (do
            let e ← inner
            expectText ")" "')' after the grouped expression"
            build s.stream.currentOffset (.group · e)) s.next
        else if s.stream.peek (.kind .identifier) then named inner s.stream.currentOffset s
        else .error (missing s.stream "an expression") s := by
  have hnil := h ("NIL", .nil) (by simp [Grammar.valueWords])
  have htrue := h ("TRUE", .boolean true) (by simp [Grammar.valueWords])
  have hfalse := h ("FALSE", .boolean false) (by simp [Grammar.valueWords])
  simp only at hnil htrue hfalse
  simp only [primary, stream_bind, acceptText_bind, hnil, htrue, hfalse, Bool.false_eq_true,
    ↓reduceIte]
  cases s.stream.next?.filter Token.isLiteral with
  | some t => rfl
  | none =>
    simp only [acceptText_bind]
    split
    · rfl
    · simp only [Bool.false_eq_true, ↓reduceIte, peek_bind]
      split <;> rfl

/-- A primary expression that is a keyword. -/
theorem primary_of_valueWord {inner : Parse Expr} {w : String × Literal}
    (hw : w ∈ Grammar.valueWords) (h : s.stream.peek (.text w.1) = true) :
    primary inner s = build s.stream.currentOffset (.literal · w.2) s.next := by
  have hpeek : ∀ text, s.stream.peek (.text text) = (w.1 == text) := by
    intro text
    cases hn : s.stream.next? with
    | none => simp [TokenStream.peek, hn] at h
    | some t =>
      have ht : t.text = w.1 := by simpa [TokenStream.peek, hn, Token.Pattern.accepts] using h
      simp [TokenStream.peek, hn, Token.Pattern.accepts, ht]
  simp only [Grammar.valueWords, List.mem_cons, List.not_mem_nil, or_false] at hw
  rcases hw with rfl | rfl | rfl <;> simp [primary, acceptText_bind, hpeek]

/-- A primary expression is a keyword, a literal, a group or a name. -/
theorem primary_eq_ok {inner : Parse Expr} {e : Expr} (h : primary inner s = .ok e s') :
    (∃ w ∈ Grammar.valueWords, s.stream.peek (.text w.1) = true ∧
      build s.stream.currentOffset (.literal · w.2) s.next = .ok e s') ∨
    NoKeywordLiteral s ∧
      ((∃ t value, s.stream.next? = some t ∧ t.isLiteral = true ∧
        Literal.ofToken? t = some value ∧ build t.offset (.literal · value) s.next = .ok e s') ∨
      (s.stream.peek (.text "(") = true ∧ ∃ e' s₁ s₂, inner s.next = .ok e' s₁ ∧
        expectText ")" "')' after the grouped expression" s₁ = .ok () s₂ ∧
        build s.stream.currentOffset (.group · e') s₂ = .ok e s') ∨
      (s.stream.peek (.text "(") = false ∧ s.stream.peek (.kind .identifier) = true ∧
        named inner s.stream.currentOffset s = .ok e s')) := by
  by_cases hno : NoKeywordLiteral s
  · refine Or.inr ⟨hno, ?_⟩
    rw [primary_of_noKeywordLiteral hno] at h
    cases hl : s.stream.next?.filter Token.isLiteral with
    | some t =>
      obtain ⟨ht, hlit⟩ := Option.filter_eq_some_iff.1 hl
      simp only [hl, literal, advance_bind] at h
      cases hv : Literal.ofToken? t with
      | some value =>
        simp only [hv] at h
        exact Or.inl ⟨t, value, ht, hlit, hv, h⟩
      | none => simp [hv] at h
    | none =>
      simp only [hl] at h
      split at h
      · rename_i hp
        simp only [bind_eq_ok] at h
        obtain ⟨e', s₁, he, _, s₂, hc, hb⟩ := h
        exact Or.inr (Or.inl ⟨hp, e', s₁, s₂, he, hc, hb⟩)
      · rename_i hp
        split at h
        · rename_i hi
          exact Or.inr (Or.inr ⟨by simpa using hp, hi, h⟩)
        · cases h
  · obtain ⟨w, hw, hp⟩ : ∃ w ∈ Grammar.valueWords, s.stream.peek (.text w.1) = true := by
      simpa [NoKeywordLiteral] using hno
    rw [primary_of_valueWord hw hp] at h
    exact Or.inl ⟨w, hw, hp, h⟩

end Parse

end TinyScript
