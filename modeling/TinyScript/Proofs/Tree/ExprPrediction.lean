import TinyScript.Proofs.Tree.Prediction

/-
  Prediction of expressions.

  The rules are gone through for a parser of what stands one level further in, which
  predicts expressions of any depth.  The levels still allowed do not show: a parser that
  has none left fails with an error that points at no token.
-/

namespace TinyScript

open Computability Grammar

namespace Parse

open ParserState

variable {s : ParserState}

/-! ## Primary expressions -/

theorem currentOffset_of_head? {t : ParserState} {u : Token} (h : t.rest.head? = some u) :
    t.stream.currentOffset = u.offset := by
  rw [TokenStream.currentOffset, TokenStream.next?, show t.stream.rest.head? = some u from h]
  rfl

/-- A literal is a primary expression if it has a value, and is at fault otherwise. -/
theorem predictsAt_literal {p : Parse Expr} {L : Phrase Expr} {u : Token} {zs : List Token}
    (hrest : s.rest = u :: zs) (hu : u.isLiteral = true) [Spellable (Words (Primary L))]
    (h : ∀ t, t.rest.head? = some u → p t = literal u t) :
    PredictsAt (Words (Primary L)) s p := by
  cases hvalue : Literal.ofToken? u with
  | some value =>
    refine .word hrest ⟨_, .literal hu hvalue⟩
      (predictsAt_build u.offset (.literal · value) s.next) fun t _ ht => ?_
    rw [h t ht, literal, advance_bind, hvalue]
  | none =>
    have hreports : (ParseError.unexpectedToken "a valid literal" u.text u.offset).Reports u :=
      ⟨rfl, rfl⟩
    refine .faults hrest hreports fun t _ ht => ⟨t.next, ?_⟩
    rw [h t ht, literal, advance_bind, hvalue]
    rfl

instance {L : Phrase Expr} : Spellable (Words (Primary L)) := by
  refine spellable_of_mem [terminalToken "NIL"] ⟨.literal .blank .nil, ?_⟩
    (by simpa using lexed_nil)
  exact .word (w := ("NIL", .nil)) (by simp [valueWords]) ⟨rfl, rfl⟩

section
variable {inner : Parse Expr}

/-- An expression in parentheses. -/
theorem predictsAt_group (hi : Predicts inner (Words AnyExpression)) {p : Parse Expr} {u : Token}
    {zs : List Token} (hs : s.Lexed) (hrest : s.rest = u :: zs) (hu : u.Is "(")
    (h : ∀ t, t.rest.head? = some u → p t = (do
      let e ← inner
      expectText ")" "')' after the grouped expression"
      build u.offset (.group · e)) t.next) :
    PredictsAt (Words (Primary AnyExpression)) s p := by
  have hclose : Predicts (expectText ")" "')' after the grouped expression") (Terminal ")") :=
    predicts_expectText (by decide)
  have hgroup := (hi.bind fun e => hclose.last fun _ =>
    predictsAt_build u.offset (.group · e)) s.next hs.next
  refine (hgroup.next hrest fun t _ ht => h t ht).mono ?_
  rintro _ ⟨_, rfl, _, ⟨us, ⟨e, he⟩, _, ⟨t, ht, rfl⟩, rfl⟩, rfl⟩
  exact ⟨_, .group hu he ht⟩

variable (hm : Moves inner) (hi : Predicts inner (Words AnyExpression))
include hm hi

theorem predicts_arguments : Predicts (arguments inner) (Words (Enclosed AnyExpression)) :=
  predicts_commaSeparated hm hi

/-- What follows a name: the arguments of a call, if there are any. -/
theorem predicts_call {make : List Expr → Parse Expr} {plain : Parse Expr}
    (hmake : ∀ es s, PredictsAt 1 s (make es)) (hplain : ∀ s, PredictsAt 1 s plain) :
    Predicts (do if ← acceptText "(" then arguments inner >>= make else plain)
      (Terminal "(" * Words (Enclosed AnyExpression) + 1) :=
  Predicts.ifText (by decide) ((predicts_arguments hm hi).last hmake) fun s _ => hplain s

/-- A name where no keyword stands for a value. -/
theorem predictsAt_named {u : Token} {zs : List Token} (hs : s.Lexed) (hrest : s.rest = u :: zs)
    (hu : IsName u) (offset : Nat) :
    PredictsAt (Words (Primary AnyExpression)) s (named inner offset) := by
  have hcall := predicts_call hm hi
    (fun args => predictsAt_build offset (.call · u.text args))
    (predictsAt_build offset (.var · u.text))
  refine ((hcall s.next hs.next).next hrest fun t _ ht => ?_).mono ?_
  · have hname : expectName "a name" t = .ok u.text t.next :=
      expectName_eq_ok.2 ⟨u, ht, hu.1, rfl, rfl⟩
    rw [named, bind_of_ok hname]
  · rintro _ ⟨_, rfl, us, ⟨_, ⟨t, ht, rfl⟩, us, ⟨es, hes⟩, rfl⟩ | rfl, rfl⟩
    · exact ⟨_, .call hu (.intro ht hes)⟩
    · exact ⟨_, .var hu⟩

omit hm hi in
/-- What comes next decides, where no keyword stands for a value. -/
theorem primary_of_head? {t : ParserState} (hno : NoKeywordLiteral s)
    (ht : t.rest.head? = s.rest.head?) :
    primary inner t =
      match s.rest.head?.filter Token.isLiteral with
      | some u => literal u t
      | none =>
        if s.stream.peek (.text "(") then
          (do
            let e ← inner
            expectText ")" "')' after the grouped expression"
            build t.stream.currentOffset (.group · e)) t.next
        else if s.stream.peek (.kind .identifier) then named inner t.stream.currentOffset t
        else .error (missing t.stream "an expression") t := by
  have hnot : NoKeywordLiteral t := fun w hw => by rw [peek_congr ht]; exact hno w hw
  rw [primary_of_noKeywordLiteral hnot, ← peek_congr ht, ← peek_congr ht, ← ht]
  rfl

theorem predicts_primary : Predicts (primary inner) (Words (Primary AnyExpression)) := by
  intro s hs
  by_cases hno : NoKeywordLiteral s
  · cases hliteral : s.rest.head?.filter Token.isLiteral with
    | some u =>
      obtain ⟨hhead, hu⟩ := Option.filter_eq_some_iff.1 hliteral
      refine predictsAt_literal (List.eq_cons_of_mem_head? hhead) hu fun t ht => ?_
      rw [primary_of_head? hno (ht.trans hhead.symm), hliteral]
    | none =>
      by_cases hopen : s.stream.peek (.text "(") = true
      · obtain ⟨u, hrest, hu⟩ := is_of_peek hs (by decide) hopen
        refine predictsAt_group hi hs hrest hu fun t ht => ?_
        have hhead : t.rest.head? = s.rest.head? := by rw [ht, hrest, List.head?_cons]
        rw [primary_of_head? hno hhead, hliteral, currentOffset_of_head? ht]
        exact if_pos hopen
      · by_cases hname : s.stream.peek (.kind .identifier) = true
        · obtain ⟨u, hu⟩ := TokenStream.exists_of_peek hname
          have hkind : u.kind = .identifier := by
            simpa [TokenStream.peek, hu, Token.Pattern.accepts] using hname
          have hnamed := predictsAt_named hm hi hs (rest_of_next? hu)
            (isName_of_noKeywordLiteral hno hu hkind) u.offset
          refine hnamed.same fun t _ ht => ?_
          rw [primary_of_head? hno ht, hliteral, currentOffset_of_head? (ht.trans hu)]
          exact (if_neg hopen).trans (if_pos hname)
        · refine .lacks "an expression" fun t _ ht => ?_
          rw [primary_of_head? hno ht, hliteral]
          exact (if_neg hopen).trans (if_neg hname)
  · obtain ⟨w, hw, hpeek⟩ : ∃ w ∈ valueWords, s.stream.peek (.text w.1) = true := by
      simpa [NoKeywordLiteral] using hno
    obtain ⟨u, hrest, hu⟩ := is_of_peek hs (isTerminal_valueWords w hw) hpeek
    refine .word hrest ⟨_, .word hw hu⟩ (predictsAt_build u.offset (.literal · w.2) s.next) ?_
    intro t _ ht
    have hhead : t.rest.head? = s.rest.head? := by rw [ht, hrest, List.head?_cons]
    rw [primary_of_valueWord hw ((peek_congr hhead _).trans hpeek), currentOffset_of_head? ht]

/-! ## Secondary expressions -/

omit hi in
theorem repeats_members : Repeats (members inner) fun k receiver => do
    if ← acceptText "." then member inner receiver >>= k else return receiver where
  unfold _ _ _ := rfl
  stop k receiver s hs := by
    rw [acceptText_bind, peek_of_rest_nil hs]
    rfl
  round_congr {k k' receiver s} hk := by
    refine ifText_congr (fun hlt => ?_) rfl
    exact bind_congr_of_moves (moves_member hm receiver) fun e s' hle =>
      hk e s' (Nat.lt_of_le_of_lt hle hlt)

theorem predicts_member (receiver : Expr) :
    Predicts (member inner receiver) (MemberName AnyExpression) :=
  predicts_identifier.bind fun name => predicts_call hm hi
    (fun args => predictsAt_build name.offset (.methodCall · receiver name.text args))
    (predictsAt_build name.offset (.field · receiver name.text))

theorem predicts_members (receiver : Expr) :
    Predicts (unbounded (members inner) receiver) (Member AnyExpression)∗ := by
  refine (repeats_members hm).predicts (fun receiver s hs ih => ?_) receiver
  have hmember : s.next.rest.length < s.rest.length →
      PredictsAt (MemberName AnyExpression * (Member AnyExpression)∗) s.next
        (member inner receiver >>= unbounded (members inner)) := by
    intro hlt
    refine (predicts_member hm hi receiver s.next hs.next).bind fun us e s' _ hrest => ?_
    refine ih e s' (hs.next.after hrest) (Nat.lt_of_le_of_lt ?_ hlt)
    rw [hrest, List.length_append]
    omega
  exact (PredictsAt.ifText hs (by decide) (fun _ => hmember) fun _ => .pure _ s).mono
    (round_le _ _)

theorem predicts_secondary : Predicts (secondary inner) (Words (Secondary AnyExpression)) :=
  Predicts.mono ((predicts_primary hm hi).bind (predicts_members hm hi)) secondary_le

end

/-! ## Operators -/

section
variable {operators : List BinaryOperator} {operand : Parse Expr} {L : Phrase Expr}

theorem peekOperator_bind {k : Option BinaryOperator → Parse Expr} (s : ParserState) :
    (peekOperator operators >>= k) s =
      k ((s.rest.head?.filter fun t => t.kind = .identifier ∨ t.kind = .operator).bind
        fun t => operators.find? fun o => o.text == t.text) s :=
  bind_of_ok (peekOperator_eq_ok.2 ⟨rfl, rfl⟩)

theorem repeats_chain (hm : Moves operand) : Repeats (chain operators operand) fun k left => do
    match ← peekOperator operators with
    | none => return left
    | some operator =>
      advance
      let right ← operand
      let joined ← build left.offset (.binary · operator left right)
      k joined where
  unfold _ _ _ := rfl
  stop k left s hs := by
    rw [peekOperator_bind, hs]
    rfl
  round_congr {k k' left s} hk := by
    rw [peekOperator_bind, peekOperator_bind]
    generalize ho : Option.bind _ _ = o
    cases o with
    | none => rfl
    | some operator =>
      obtain ⟨u, hu, -⟩ := Option.bind_eq_some_iff.1 ho
      have hlt := length_next_lt (Option.filter_eq_some_iff.1 hu).1
      show (advance >>= _) s = (advance >>= _) s
      rw [advance_bind, advance_bind]
      refine bind_congr_of_moves hm fun right s₁ hle => ?_
      refine bind_congr_of_moves moves_build fun joined s₂ hle' => ?_
      exact hk joined s₂ (Nat.lt_of_le_of_lt (hle'.trans hle) hlt)

theorem predicts_chain (hm : Moves operand) (ho : Predicts operand (Words L))
    (hterm : ∀ o ∈ operators, isTerminal o.text = true) (left : Expr) :
    Predicts (unbounded (chain operators operand) left) (Operation operators L)∗ := by
  refine (repeats_chain hm).predicts (fun left s hs ih => ?_) left
  cases hfound : (s.rest.head?.filter fun t => t.kind = .identifier ∨ t.kind = .operator).bind
      fun t => operators.find? fun o => o.text == t.text with
  | none =>
    refine ((PredictsAt.pure left s).same fun t _ ht => ?_).mono one_le_kstar
    rw [peekOperator_bind, ht, hfound]
  | some operator =>
    obtain ⟨-, hmem, u, hrest, hu⟩ :=
      is_of_peekOperator hs hterm (peekOperator_eq_ok.2 ⟨rfl, hfound.symm⟩)
    have hoperation : PredictsAt (Words L * (1 * (Operation operators L)∗)) s.next (do
        let right ← operand
        let joined ← build left.offset (.binary · operator left right)
        unbounded (chain operators operand) joined) := by
      refine (ho s.next hs.next).bind fun us right s₁ _ hrest₁ => ?_
      refine (predictsAt_build _ _ s₁).bind fun vs joined s₂ _ hrest₂ => ?_
      refine ih joined s₂ ((hs.next.after hrest₁).after hrest₂) ?_
      rw [hrest, hrest₁, hrest₂, List.length_cons, List.length_append, List.length_append]
      omega
    refine (hoperation.next hrest fun t _ ht => ?_).mono ?_
    · have hhead : t.rest.head? = s.rest.head? := by rw [ht, hrest, List.head?_cons]
      rw [peekOperator_bind, hhead, hfound]
      rfl
    · rw [one_mul, ← mul_assoc]
      refine le_trans (mul_le_mul_left ?_ _) mul_kstar_le_kstar
      rintro _ ⟨_, rfl, us, hus, rfl⟩
      exact ⟨operator, hmem, Language.append_mem_mul ⟨u, hu, rfl⟩ hus⟩

theorem predicts_leftAssociative (hm : Moves operand) (ho : Predicts operand (Words L))
    (hterm : ∀ o ∈ operators, isTerminal o.text = true) :
    Predicts (leftAssociative operators operand) (Words (Chain operators L)) :=
  Predicts.mono (ho.bind (predicts_chain hm ho hterm)) chain_le

end

theorem predicts_logical {inner : Parse Expr} (hm : Moves inner)
    (hi : Predicts inner (Words AnyExpression)) :
    Predicts (logical inner) (Words (Logical AnyExpression)) := by
  have hs := moves_secondary hm
  have hproduct := moves_leftAssociative hs [.mul, .div]
  have hsum := moves_leftAssociative hproduct [.add, .sub]
  have hcomparison := moves_leftAssociative hsum
    [.less, .lessEqual, .greater, .greaterEqual, .equal, .notEqual]
  refine predicts_leftAssociative hcomparison ?_ (by decide)
  refine predicts_leftAssociative hsum ?_ (by decide)
  refine predicts_leftAssociative hproduct ?_ (by decide)
  exact predicts_leftAssociative hs (predicts_secondary hm hi) (by decide)

theorem predicts_expression (room : Nat) : Predicts (expression room) (Words AnyExpression) := by
  induction room with
  | zero => exact fun _ _ => predictsAt_tooDeep
  | succ room ih =>
    exact ((predicts_logical (moves_expression room) ih).mono anyExpression_le).nested

end Parse

end TinyScript
