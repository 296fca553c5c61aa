import TinyScript.Proofs.Tree.Parts
import TinyScript.Proofs.Tree.Primitive

/-
  Identities of parsed trees.

  A parser hands out identities one after the other, and every part it builds
  stands in the tree it returns: the identities of the parts, in document order,
  are the numbers between the counter before and the counter after.

  * `Numbers p parts`: the parser `p` does so, where `parts` lists what has an
    identity in a result;
  * `ids_of_parse`: the identities in a parsed program are `0, 1, 2, ...`;
  * `created_parts_in_order`: they are all that were handed out.
-/

namespace TinyScript

/-- The list counts from `a` up to, but not including, `b`. -/
def Counts (a : Nat) (ids : List Nat) (b : Nat) : Prop :=
  ids = List.range' a ids.length ∧ b = a + ids.length

namespace Counts

theorem nil (a : Nat) : Counts a [] a := ⟨rfl, rfl⟩

theorem single (a : Nat) : Counts a [a] (a + 1) := ⟨rfl, rfl⟩

theorem append {a b c : Nat} {l l' : List Nat} (h : Counts a l b) (h' : Counts b l' c) :
    Counts a (l ++ l') c := by
  obtain ⟨hl, rfl⟩ := h
  obtain ⟨hl', rfl⟩ := h'
  refine ⟨?_, by simp [Nat.add_assoc]⟩
  rw [List.length_append, ← List.range'_append_1, ← hl, ← hl']

end Counts

namespace Parse

variable {α β : Type}

/-- Whatever the parser returns, its parts carry the identities handed out on the
    way, in order. -/
def Numbers (p : Parse α) (parts : α → List Part) : Prop :=
  ∀ s a s', p s = .ok a s' → Counts s.nextId ((parts a).map Part.id) s'.nextId

/-! ## Primitives and lists -/

theorem nextId_expectText {text expected : String} {s s' : ParserState} {u : Unit}
    (h : expectText text expected s = .ok u s') : s'.nextId = s.nextId := by
  obtain ⟨t, -, -, rfl⟩ := expectText_eq_ok.1 h
  rfl

theorem nextId_expectName {expected name : String} {s s' : ParserState}
    (h : expectName expected s = .ok name s') : s'.nextId = s.nextId := by
  obtain ⟨t, -, -, -, rfl⟩ := expectName_eq_ok.1 h
  rfl

/-- A node built after its children continues their numbering. -/
theorem counts_build {offset : Nat} {make : Node → Expr} {e : Expr} {a : Nat}
    (parts : List Part) {s s' : ParserState} (h : build offset make s = .ok e s')
    (hid : ∀ n : Node, (make n).id = n.id)
    (hparts : ∀ n : Node, (make n).parts = parts ++ [.expr (make n)])
    (hc : Counts a (parts.map Part.id) s.nextId) :
    Counts a (e.parts.map Part.id) s'.nextId := by
  obtain ⟨rfl, -, rfl⟩ := build_eq_ok.1 h
  rw [hparts, List.map_append]
  refine hc.append ?_
  show Counts _ [(make _).id] _
  rw [hid]
  exact Counts.single _

theorem numbers_optionalAfter {text : String} {p : Parse α} {parts : α → List Part}
    (hp : Numbers p parts) : Numbers (optionalAfter text p) fun a => a.elim [] parts := by
  intro s a s' h
  rcases optionalAfter_eq_ok.1 h with ⟨-, rfl, rfl⟩ | ⟨-, b, rfl, hb⟩
  · exact Counts.nil _
  · have := hp _ _ _ hb
    exact this

theorem numbers_listTail {item : Parse α} {parts : α → List Part} (hitem : Numbers item parts)
    (closing : String) :
    ∀ bound, Numbers (listTail item closing bound) (List.flatMap parts)
  | [], s, as, s', h => by
    simp [listTail] at h
  | _ :: bound, s, as, s', h => by
    rw [listTail, acceptText_bind] at h
    split at h
    · simp only [↓reduceIte, pure_apply, EStateM.Result.ok.injEq] at h
      obtain ⟨rfl, rfl⟩ := h
      exact Counts.nil _
    · simp only [Bool.false_eq_true, ↓reduceIte, bind_eq_ok, pure_apply,
        EStateM.Result.ok.injEq] at h
      obtain ⟨_, s₁, hcomma, a, s₂, ha, as', s₃, has, rfl, rfl⟩ := h
      have h₁ := hitem _ _ _ ha
      rw [nextId_expectText hcomma] at h₁
      have h₂ := numbers_listTail hitem closing bound _ _ _ has
      rw [List.flatMap_cons, List.map_append]
      exact h₁.append h₂

theorem numbers_commaSeparated {item : Parse α} {parts : α → List Part}
    (hitem : Numbers item parts) (closing : String) :
    Numbers (commaSeparated item closing) (List.flatMap parts) := by
  intro s as s' h
  rw [commaSeparated, acceptText_bind] at h
  split at h
  · simp only [↓reduceIte, pure_apply, EStateM.Result.ok.injEq] at h
    obtain ⟨rfl, rfl⟩ := h
    exact Counts.nil _
  · simp only [Bool.false_eq_true, ↓reduceIte, bind_eq_ok, stream_bind, pure_apply,
      EStateM.Result.ok.injEq] at h
    obtain ⟨a, s₁, ha, as', s₂, has, rfl, rfl⟩ := h
    rw [List.flatMap_cons, List.map_append]
    exact (hitem _ _ _ ha).append (numbers_listTail hitem closing _ _ _ _ has)

/-! ## Expressions -/

section
variable {inner : Parse Expr} (hinner : Numbers inner Expr.parts)
include hinner

theorem counts_arguments {s s' : ParserState} {args : List Expr}
    (h : arguments inner s = .ok args s') :
    Counts s.nextId ((args.flatMap Expr.parts).map Part.id) s'.nextId :=
  numbers_commaSeparated hinner ")" _ _ _ h

theorem numbers_named (offset : Nat) : Numbers (named inner offset) Expr.parts := by
  intro s e s' h
  rw [named, bind_eq_ok] at h
  obtain ⟨name, s₁, hname, h⟩ := h
  rw [← nextId_expectName hname]
  rw [acceptText_bind] at h
  split at h
  · simp only [↓reduceIte, bind_eq_ok] at h
    obtain ⟨args, s₂, hargs, hb⟩ := h
    have hc := counts_arguments hinner hargs
    exact counts_build _ hb (fun _ => rfl) (fun n => Expr.parts_call n _ _) hc
  · simp only [Bool.false_eq_true, ↓reduceIte] at h
    exact counts_build [] h (fun _ => rfl) (fun _ => rfl) (Counts.nil _)

theorem numbers_primary : Numbers (primary inner) Expr.parts := by
  intro s e s' h
  rcases primary_eq_ok h with ⟨k, -, -, hb⟩ | ⟨-, ⟨t, v, -, -, -, hb⟩ | h | ⟨-, -, h⟩⟩
  · have hc := counts_build [] hb (fun _ => rfl) (fun _ => rfl) (Counts.nil _)
    exact hc
  · have hc := counts_build [] hb (fun _ => rfl) (fun _ => rfl) (Counts.nil _)
    exact hc
  · obtain ⟨-, e', s₁, s₂, he, hclose, hb⟩ := h
    have hc := hinner _ _ _ he
    rw [← nextId_expectText hclose] at hc
    exact counts_build _ hb (fun _ => rfl) (fun n => Expr.parts_group n _) hc
  · exact numbers_named hinner _ _ _ _ h

theorem counts_member {receiver : Expr} {a : Nat} {s s' : ParserState} {e : Expr}
    (hr : Counts a (receiver.parts.map Part.id) s.nextId)
    (h : member inner receiver s = .ok e s') :
    Counts a (e.parts.map Part.id) s'.nextId := by
  rw [member, bind_eq_ok] at h
  obtain ⟨name, s₁, hname, h⟩ := h
  obtain ⟨-, -, rfl⟩ := expect_eq_ok.1 hname
  rw [acceptText_bind] at h
  split at h
  · simp only [↓reduceIte, bind_eq_ok] at h
    obtain ⟨args, s₂, hargs, hb⟩ := h
    have hc := counts_arguments hinner hargs
    refine counts_build _ hb (fun _ => rfl) (fun n => Expr.parts_methodCall n _ _ _) ?_
    rw [List.map_append]
    exact hr.append hc
  · simp only [Bool.false_eq_true, ↓reduceIte] at h
    exact counts_build _ h (fun _ => rfl) (fun n => Expr.parts_field n _ _) hr

theorem counts_members : ∀ (bound : List Token) {receiver : Expr} {a : Nat} {s s' : ParserState}
    {e : Expr}, Counts a (receiver.parts.map Part.id) s.nextId →
      members inner bound receiver s = .ok e s' →
      Counts a (e.parts.map Part.id) s'.nextId
  | [], receiver, a, s, s', e, hr, h => by
    simp only [members, pure_apply, EStateM.Result.ok.injEq] at h
    obtain ⟨rfl, rfl⟩ := h
    exact hr
  | _ :: bound, receiver, a, s, s', e, hr, h => by
    rw [members, acceptText_bind] at h
    split at h
    · simp only [↓reduceIte, bind_eq_ok] at h
      obtain ⟨e', s₁, he, h⟩ := h
      exact counts_members bound (counts_member hinner (s := s.next) hr he) h
    · simp only [Bool.false_eq_true, ↓reduceIte, pure_apply, EStateM.Result.ok.injEq] at h
      obtain ⟨rfl, rfl⟩ := h
      exact hr

theorem numbers_secondary : Numbers (secondary inner) Expr.parts := by
  intro s e s' h
  simp only [secondary, bind_eq_ok, stream_bind] at h
  obtain ⟨e', s₁, he, h⟩ := h
  exact counts_members hinner _ (numbers_primary hinner _ _ _ he) h

end

theorem counts_chain {operators : List BinaryOperator} {operand : Parse Expr}
    (ho : Numbers operand Expr.parts) :
    ∀ (bound : List Token) {left : Expr} {a : Nat} {s s' : ParserState} {e : Expr},
      Counts a (left.parts.map Part.id) s.nextId →
      chain operators operand bound left s = .ok e s' →
      Counts a (e.parts.map Part.id) s'.nextId
  | [], left, a, s, s', e, hl, h => by
    simp only [chain, pure_apply, EStateM.Result.ok.injEq] at h
    obtain ⟨rfl, rfl⟩ := h
    exact hl
  | _ :: bound, left, a, s, s', e, hl, h => by
    rw [chain, bind_eq_ok] at h
    obtain ⟨o, t, hp, h⟩ := h
    obtain ⟨rfl, -⟩ := peekOperator_eq_ok.1 hp
    cases o with
    | none =>
      simp only [pure_apply, EStateM.Result.ok.injEq] at h
      obtain ⟨rfl, rfl⟩ := h
      exact hl
    | some operator =>
      simp only [advance_bind, bind_eq_ok] at h
      obtain ⟨right, s₁, hr, joined, s₂, hb, h⟩ := h
      have hc := ho _ _ _ hr
      refine counts_chain ho bound ?_ h
      refine counts_build _ hb (fun _ => rfl) (fun n => Expr.parts_binary n _ _ _) ?_
      rw [List.map_append]
      exact hl.append hc

theorem numbers_leftAssociative {operand : Parse Expr} (ho : Numbers operand Expr.parts)
    (operators : List BinaryOperator) : Numbers (leftAssociative operators operand) Expr.parts := by
  intro s e s' h
  simp only [leftAssociative, bind_eq_ok, stream_bind] at h
  obtain ⟨left, s₁, hl, h⟩ := h
  exact counts_chain ho _ (ho _ _ _ hl) h

theorem numbers_nested {p : Parse α} {parts : α → List Part} (hp : Numbers p parts) :
    Numbers (nested p) parts := by
  intro s a s' h
  obtain ⟨-, t, ht, rfl⟩ := nested_eq_ok.1 h
  exact hp s.deeper a t ht

theorem numbers_expression : ∀ room, Numbers (expression room) Expr.parts
  | 0, s, e, s', h => by
    simp [expression, tooDeep] at h
  | room + 1, s, e, s', h => by
    have hmul := numbers_leftAssociative (numbers_secondary (numbers_expression room)) [.mul, .div]
    have hadd := numbers_leftAssociative hmul [.add, .sub]
    have hcmp := numbers_leftAssociative hadd
      [.less, .lessEqual, .greater, .greaterEqual, .equal, .notEqual]
    exact numbers_nested (numbers_leftAssociative hcmp [.and, .or]) s e s' h

theorem numbers_optionalExpr (text : String) (room : Nat) :
    Numbers (optionalAfter text (expression room)) Expr.optionalParts := by
  intro s a s' h
  have hc := numbers_optionalAfter (numbers_expression room) s a s' h
  cases a <;> exact hc

theorem nextId_optionalName {text expected : String} {s s' : ParserState} {a : Option String}
    (h : optionalAfter text (expectName expected) s = .ok a s') : s'.nextId = s.nextId := by
  rcases optionalAfter_eq_ok.1 h with ⟨-, -, rfl⟩ | ⟨-, b, -, hb⟩
  · rfl
  · have hid := nextId_expectName hb
    exact hid

/-! ## Statements -/

theorem numbers_statementsUpTo {statement : Parse Stmt} (hs : Numbers statement Stmt.parts)
    (terminators : List String) :
    ∀ bound, Numbers (statementsUpTo statement terminators bound) Stmt.partsList
  | [], s, ss, s', h => by
    simp only [statementsUpTo, pure_apply, EStateM.Result.ok.injEq] at h
    obtain ⟨rfl, rfl⟩ := h
    exact Counts.nil _
  | _ :: bound, s, ss, s', h => by
    simp only [statementsUpTo, atEnd, bind_assoc, stream_bind, pure_bind] at h
    split at h
    · simp only [pure_apply, EStateM.Result.ok.injEq] at h
      obtain ⟨rfl, rfl⟩ := h
      exact Counts.nil _
    · simp only [bind_eq_ok, pure_apply, EStateM.Result.ok.injEq] at h
      obtain ⟨st, s₁, hst, ss', s₂, hss, rfl, rfl⟩ := h
      rw [Stmt.partsList, List.map_append]
      exact (hs _ _ _ hst).append (numbers_statementsUpTo hs terminators bound _ _ _ hss)

theorem numbers_block {statement : Parse Stmt} (hs : Numbers statement Stmt.parts)
    (terminators : List String) : Numbers (block statement terminators) Stmt.partsList :=
  fun s => numbers_statementsUpTo hs terminators s.rest s

section
variable {room : Nat} {statement : Parse Stmt} (hs : Numbers statement Stmt.parts)

theorem numbers_declaration :
    Numbers (declaration (expression room)) fun d => Stmt.parts (.declare d) := by
  intro s d s' h
  simp only [declaration, stream_bind, bind_eq_ok, freshId_bind, pure_apply,
    EStateM.Result.ok.injEq] at h
  obtain ⟨name, s₁, hname, type, s₂, htype, value, s₃, hvalue, _, s₄, hend, rfl, rfl⟩ := h
  have hc := numbers_optionalExpr "=" room _ _ _ hvalue
  rw [nextId_optionalName htype, nextId_expectName hname] at hc
  show Counts _ ((Expr.optionalParts value ++ [Part.declaration _]).map Part.id) _
  rw [List.map_append]
  refine hc.append ?_
  rw [← nextId_expectText hend]
  exact Counts.single _

theorem numbers_ret : Numbers (ret (expression room)) Stmt.parts := by
  intro s st s' h
  simp only [ret, stream_bind, bind_eq_ok, pure_apply, EStateM.Result.ok.injEq] at h
  obtain ⟨value, s₁, hvalue, _, s₂, hend, rfl, rfl⟩ := h
  rw [nextId_expectText hend]
  exact numbers_expression room _ _ _ hvalue

theorem numbers_expressionOrAssignment :
    Numbers (expressionOrAssignment (expression room)) Stmt.parts := by
  intro s st s' h
  simp only [expressionOrAssignment, bind_eq_ok] at h
  obtain ⟨receiver, s₁, hr, value, s₂, hvalue, _, s₃, hend, h⟩ := h
  have h₁ := numbers_expression room _ _ _ hr
  have h₂ := numbers_optionalExpr "=" room _ _ _ hvalue
  rw [← nextId_expectText hend] at h₂
  cases value with
  | none =>
    simp only [pure_apply, EStateM.Result.ok.injEq] at h
    obtain ⟨rfl, rfl⟩ := h
    have hc := h₁.append h₂
    rw [Expr.optionalParts, List.map_nil, List.append_nil] at hc
    exact hc
  | some value =>
    simp only [pure_apply, EStateM.Result.ok.injEq] at h
    obtain ⟨rfl, rfl⟩ := h
    rw [Stmt.parts, List.map_append]
    exact h₁.append h₂

include hs

theorem numbers_branch : Numbers (branch (expression room) statement) Stmt.parts := by
  intro s st s' h
  simp only [branch, bind_eq_ok, pure_apply, EStateM.Result.ok.injEq] at h
  obtain ⟨c, s₁, hcond, _, s₂, hdo, thenBody, s₃, hthen, elseBody, s₄, helse, _, s₅, hend, rfl,
    rfl⟩ := h
  have h₁ := numbers_expression room _ _ _ hcond
  have h₂ := numbers_block hs _ _ _ _ hthen
  have h₃ := numbers_optionalAfter (numbers_block hs ["END"]) _ _ _ helse
  rw [nextId_expectText hdo] at h₂
  rw [← nextId_expectText hend] at h₃
  rw [Stmt.parts, List.map_append, List.map_append]
  refine (h₁.append h₂).append ?_
  cases elseBody <;> exact h₃

theorem numbers_forEach : Numbers (forEach (expression room) statement) Stmt.parts := by
  intro s st s' h
  simp only [forEach, bind_eq_ok, pure_apply, EStateM.Result.ok.injEq] at h
  obtain ⟨name, s₁, hname, _, s₂, hin, value, s₃, hvalue, _, s₄, hdo, body, s₅, hbody, _, s₆, hend,
    rfl, rfl⟩ := h
  have h₁ := numbers_expression room _ _ _ hvalue
  have h₂ := numbers_block hs _ _ _ _ hbody
  rw [nextId_expectText hin, nextId_expectName hname] at h₁
  rw [nextId_expectText hdo, ← nextId_expectText hend] at h₂
  rw [Stmt.parts, List.map_append]
  exact h₁.append h₂

theorem numbers_loop : Numbers (loop (expression room) statement) Stmt.parts := by
  intro s st s' h
  simp only [loop, bind_eq_ok, pure_apply, EStateM.Result.ok.injEq] at h
  obtain ⟨c, s₁, hcond, _, s₂, hdo, body, s₃, hbody, _, s₄, hend, rfl, rfl⟩ := h
  have h₁ := numbers_expression room _ _ _ hcond
  have h₂ := numbers_block hs _ _ _ _ hbody
  rw [nextId_expectText hdo, ← nextId_expectText hend] at h₂
  rw [Stmt.parts, List.map_append]
  exact h₁.append h₂

theorem numbers_statementOf : Numbers (statementOf (expression room) statement) Stmt.parts := by
  intro s st s' h
  simp only [statementOf, acceptText_bind, Bool.false_eq_true, ↓reduceIte] at h
  split at h
  · simp only [bind_eq_ok, pure_apply, EStateM.Result.ok.injEq] at h
    obtain ⟨d, s₁, hd, rfl, rfl⟩ := h
    have hc := numbers_declaration _ _ _ hd
    exact hc
  split at h
  · have hc := numbers_branch hs _ _ _ h
    exact hc
  split at h
  · have hc := numbers_forEach hs _ _ _ h
    exact hc
  split at h
  · have hc := numbers_loop hs _ _ _ h
    exact hc
  split at h
  · have hc := numbers_ret _ _ _ h
    exact hc
  · exact numbers_expressionOrAssignment _ _ _ h

end

theorem numbers_statement : ∀ room, Numbers (statement room) Stmt.parts
  | 0, s, st, s', h => by
    simp [statement, tooDeep] at h
  | room + 1, s, st, s', h =>
    numbers_nested (numbers_statementOf (numbers_statement room)) s st s' h

/-! ## Programs -/

theorem numbers_field : Numbers field Field.parts := by
  intro s f s' h
  simp only [field, stream_bind, bind_eq_ok, freshId_bind, pure_apply,
    EStateM.Result.ok.injEq] at h
  obtain ⟨name, s₁, hname, _, s₂, hcolon, type, s₃, htype, value, s₄, hvalue, _, s₅, hend, rfl,
    rfl⟩ := h
  have hc := numbers_optionalExpr "=" nestingLimit _ _ _ hvalue
  rw [nextId_expectName htype, nextId_expectText hcolon, nextId_expectName hname] at hc
  rw [Field.parts, List.map_append]
  refine hc.append ?_
  rw [← nextId_expectText hend]
  exact Counts.single _

theorem nextId_parameters {s s' : ParserState} {ps : List Parameter}
    (h : commaSeparated parameter ")" s = .ok ps s') : s'.nextId = s.nextId := by
  have hp : Numbers parameter fun _ => [] := by
    intro s p s' h
    simp only [parameter, bind_eq_ok, pure_apply, EStateM.Result.ok.injEq] at h
    obtain ⟨name, s₁, hname, type, s₂, htype, rfl, rfl⟩ := h
    rw [nextId_optionalName htype, nextId_expectName hname]
    exact Counts.nil _
  have hc := numbers_commaSeparated hp ")" _ _ _ h
  have hnil : List.flatMap (fun _ => ([] : List Part)) ps = [] := by simp
  rw [hnil] at hc
  exact hc.2

theorem numbers_method : Numbers method Method.parts := by
  intro s m s' h
  simp only [method, stream_bind, bind_eq_ok, freshId_bind, pure_apply,
    EStateM.Result.ok.injEq] at h
  obtain ⟨name, s₁, hname, _, s₂, hopen, ps, s₃, hps, type, s₄, htype, _, s₅, hdo, body, s₆, hbody,
    _, s₇, hend, rfl, rfl⟩ := h
  have hc := numbers_block (numbers_statement nestingLimit) _ _ _ _ hbody
  rw [nextId_expectText hdo, nextId_optionalName htype, nextId_parameters hps,
    nextId_expectText hopen, nextId_expectName hname] at hc
  rw [Method.parts, List.map_append]
  refine hc.append ?_
  rw [← nextId_expectText hend]
  exact Counts.single _

theorem numbers_manyAfter {text : String} {p : Parse α} {parts : α → List Part}
    (hp : Numbers p parts) : ∀ bound, Numbers (manyAfter text p bound) (List.flatMap parts)
  | [], s, as, s', h => by
    simp only [manyAfter, pure_apply, EStateM.Result.ok.injEq] at h
    obtain ⟨rfl, rfl⟩ := h
    exact Counts.nil _
  | _ :: bound, s, as, s', h => by
    rw [manyAfter, bind_eq_ok] at h
    obtain ⟨a, s₁, ha, h⟩ := h
    have h₁ := numbers_optionalAfter hp _ _ _ ha
    cases a with
    | none =>
      simp only [pure_apply, EStateM.Result.ok.injEq] at h
      obtain ⟨rfl, rfl⟩ := h
      exact h₁
    | some a =>
      simp only [bind_eq_ok, pure_apply, EStateM.Result.ok.injEq] at h
      obtain ⟨as', s₂, has, rfl, rfl⟩ := h
      rw [List.flatMap_cons, List.map_append]
      exact h₁.append (numbers_manyAfter hp bound _ _ _ has)

theorem numbers_source : Numbers source Source.parts := by
  intro s src s' h
  simp only [source, stream_bind, bind_eq_ok] at h
  obtain ⟨fields, s₁, hf, methods, s₂, hm, h⟩ := h
  cases hn : s₂.stream.next? with
  | some t => simp [hn] at h
  | none =>
    simp only [hn, pure_apply, EStateM.Result.ok.injEq] at h
    obtain ⟨rfl, rfl⟩ := h
    rw [Source.parts, List.map_append]
    exact (numbers_manyAfter numbers_field _ _ _ _ hf).append
      (numbers_manyAfter numbers_method _ _ _ _ hm)

end Parse

/-- **Identities are dense.** The identities of the parts of a parsed program, in
    document order, are `0, 1, 2, ...`. -/
theorem ids_of_parse {tokens : List Token} {s : Source} (h : parse tokens = .ok s) :
    s.parts.map Part.id = List.range s.parts.length := by
  obtain ⟨s', hs⟩ := Parse.onTokens_eq_ok.1 h
  have hc := (Parse.numbers_source _ _ _ hs).1
  rw [List.length_map] at hc
  rw [hc, List.range_eq_range']
  rfl

theorem nodup_ids_of_parse {tokens : List Token} {s : Source} (h : parse tokens = .ok s) :
    (s.parts.map Part.id).Nodup := by
  rw [ids_of_parse h]
  exact List.nodup_range

/-- **No part is dropped.** In document order, the identities in a parsed program are those
    that parsing has handed out, from the first to the last: no two parts share one, and every
    identity handed out is that of a part. -/
theorem created_parts_in_order {tokens : List Token} {s : Source} (h : parse tokens = .ok s) :
    ∃ s', Parse.source (.ofTokens tokens) = .ok s s' ∧
      s.parts.map Part.id = List.range s'.nextId ∧ (s.parts.map Part.id).Nodup ∧
      ∀ id, id < s'.nextId ↔ ∃ part ∈ s.parts, part.id = id := by
  obtain ⟨s', hs⟩ := Parse.onTokens_eq_ok.1 h
  obtain ⟨-, hnext⟩ := Parse.numbers_source _ _ _ hs
  have hlength : s'.nextId = s.parts.length := by
    rw [hnext, List.length_map]
    exact Nat.zero_add _
  have hids : s.parts.map Part.id = List.range s'.nextId := hlength ▸ ids_of_parse h
  refine ⟨s', hs, hids, nodup_ids_of_parse h, fun id => ?_⟩
  rw [← List.mem_range, ← hids, List.mem_map]

/-- The tokens of `DEF f() DO LET x = g(y, 1); END`. -/
def declarationTokens : List Token :=
  [⟨.identifier, "DEF", 0⟩, ⟨.identifier, "f", 4⟩, ⟨.operator, "(", 5⟩, ⟨.operator, ")", 6⟩,
    ⟨.identifier, "DO", 8⟩, ⟨.identifier, "LET", 11⟩, ⟨.identifier, "x", 15⟩,
    ⟨.operator, "=", 17⟩, ⟨.identifier, "g", 19⟩, ⟨.operator, "(", 20⟩, ⟨.identifier, "y", 21⟩,
    ⟨.operator, ",", 22⟩, ⟨.integer, "1", 24⟩, ⟨.operator, ")", 25⟩, ⟨.operator, ";", 26⟩,
    ⟨.identifier, "END", 28⟩]

/-- The arguments come first, then the call, the declaration and the method. -/
theorem created_parts_of_declaration : ∃ s s', parse declarationTokens = .ok s ∧
    Parse.source (.ofTokens declarationTokens) = .ok s s' ∧ s'.nextId = 5 ∧
      s.parts.map Part.id = [0, 1, 2, 3, 4] := by
  obtain ⟨s, s', hparse, hsource, hnext⟩ : ∃ s s', parse declarationTokens = .ok s ∧
      Parse.source (.ofTokens declarationTokens) = .ok s s' ∧ s'.nextId = 5 :=
    ⟨_, _, rfl, rfl, rfl⟩
  obtain ⟨t, ht, hids, -, -⟩ := created_parts_in_order hparse
  rw [hsource] at ht
  cases ht
  rw [hnext] at hids
  exact ⟨s, s', hparse, hsource, hnext, hids⟩

end TinyScript
