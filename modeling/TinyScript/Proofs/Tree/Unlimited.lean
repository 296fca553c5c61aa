import Mathlib.Computability.Language
import Mathlib.Order.CompletePartialOrder
import TinyScript.Proofs.Tree.Acceptance

/-
  The grammar without limits, as languages.

  The phrases of `Grammar` count what is open at one time.  Those here are the same rules
  without a count, so that whether some tokens can be continued to a phrase does not depend
  on how deep they are nested already.

  A parser that fails has read a part of a rule only.  The parts of rules have no phrases
  of their own: they are products, sums and iterations of the languages of phrases, and for
  every rule there is one inclusion.

  * `Grammar.Unlimited`: whole programs of any depth;
  * `Grammar.Words`, `Grammar.Terminal`: the languages of phrases and terminals;
  * `Grammar.Front`: tokens that some further tokens complete.
-/

namespace TinyScript

open Computability

namespace Grammar

variable {α : Type}

/-! ## Phrases of any depth -/

/-- Expressions of any depth: whatever the rules derive from parts (`inner`) that are such
    expressions themselves. -/
inductive AnyExpression : Phrase Expr
  | intro {inner : Phrase Expr} {ts e} : (∀ us b, inner us b → AnyExpression us b) →
      Logical inner ts e → AnyExpression ts e

/-- Statements of any depth: whatever the rules derive from parts that are expressions of
    any depth and such statements themselves. -/
inductive AnyStatement : Phrase Stmt
  | intro {expression : Phrase Expr} {statement : Phrase Stmt} {ts s} :
      (∀ us b, expression us b → AnyExpression us b) →
      (∀ us b, statement us b → AnyStatement us b) →
      StatementOf expression statement ts s → AnyStatement ts s

/-- Whole programs of any depth. -/
def Unlimited : Phrase Source := SourceOf AnyExpression AnyStatement

/-! ## The limits only exclude -/

section
variable {L M : Phrase α} {ts : List Token}

theorem Led.mono {text : String} {a : α} (h : ∀ us b, L us b → M us b) :
    Led text L ts a → Led text M ts a
  | .intro ht ha => .intro ht (h _ _ ha)

theorem Optional.mono {a : Option α} (h : ∀ us b, L us b → M us b) :
    Optional L ts a → Optional M ts a
  | .none => .none
  | .some ha => .some (h _ _ ha)

theorem Block.mono {statement statement' : Phrase Stmt} {ends : List String} {ss : List Stmt}
    (h : ∀ us b, statement us b → statement' us b) (hss : Block statement ends ts ss) :
    Block statement' ends ts ss := by
  induction hss with
  | nil => exact .nil
  | cons hends hs _ ih => exact .cons hends (h _ _ hs) ih

theorem Expression.unlimited (room : Nat) : ∀ us b, Expression room us b → AnyExpression us b := by
  induction room with
  | zero => exact fun _ _ h => h.elim
  | succ room ih => exact fun _ _ h => .intro ih h.1

theorem Statement.unlimited (room : Nat) : ∀ us b, Statement room us b → AnyStatement us b := by
  induction room with
  | zero => exact fun _ _ h => h.elim
  | succ room ih => exact fun _ _ h => .intro (Expression.unlimited room) ih h

/-- Whatever derives within some limits derives without. -/
theorem SourceRule.unlimited {room : Nat} {b : Source} (h : SourceRule room ts b) :
    Unlimited ts b := by
  obtain ⟨hfields, hmethods⟩ := h
  refine .intro (hfields.mono fun us f => Led.mono ?_) (hmethods.mono fun us m => Led.mono ?_)
  · rintro us f ⟨hx, htype, hvalue, ht⟩
    exact .intro hx htype (hvalue.mono fun _ _ => Led.mono (Expression.unlimited room)) ht
  · rintro us m ⟨hf, hps, htype, hbody, ht⟩
    refine .intro hf hps htype (hbody.mono fun _ _ => Block.mono ?_) ht
    exact Statement.unlimited room

end

/-! ## Languages -/

/-- The words that derive some tree. -/
def Words (L : Phrase α) : Language Token := {ts | ∃ a, L ts a}

/-- The words of one token, which is the terminal. -/
def Terminal (text : String) : Language Token := {ts | ∃ t, Token.Is t text ∧ ts = [t]}

/-- The words of a language whose first token, if there is one, has the property. -/
def Headed (Q : Token → Prop) (A : Language Token) : Language Token :=
  {ts | ts ∈ A ∧ ∀ t ∈ ts.head?, Q t}

/-- Further tokens, which come from a text, complete these to a word. -/
def Front (A : Language Token) (us : List Token) : Prop :=
  ∃ vs, (∀ t ∈ vs, t.Lexed) ∧ us ++ vs ∈ A

/-- Some word consists of tokens that come from a text. -/
class Spellable (A : Language Token) : Prop where
  front : Front A []

section
variable {A B : Language Token} {us vs : List Token}

theorem Front.mono (h : Front A us) (hle : A ≤ B) : Front B us := by
  obtain ⟨vs, hvs, hmem⟩ := h
  exact ⟨vs, hvs, hle hmem⟩

/-- A completed word can be followed by any word that consists of such tokens. -/
theorem Front.mul_right [Spellable B] (h : Front A us) : Front (A * B) us := by
  obtain ⟨vs, hvs, hmem⟩ := h
  obtain ⟨ws, hws, hmem'⟩ := Spellable.front (A := B)
  refine ⟨vs ++ ws, ?_, ?_⟩
  · rintro t ht
    rcases List.mem_append.1 ht with ht | ht
    · exact hvs t ht
    · exact hws t ht
  · rw [← List.append_assoc]
    exact Language.append_mem_mul hmem hmem'

theorem Front.mul_left (hus : us ∈ A) (h : Front B vs) : Front (A * B) (us ++ vs) := by
  obtain ⟨ws, hws, hmem⟩ := h
  refine ⟨ws, hws, ?_⟩
  rw [List.append_assoc]
  exact Language.append_mem_mul hus hmem

/-- Tokens with a good first one stay good when they are completed. -/
theorem Front.headed {Q : Token → Prop} (h : Front A us) (hus : ∀ t ∈ us.head?, Q t)
    (hempty : Front (Headed Q A) []) : Front (Headed Q A) us := by
  cases us with
  | nil => exact hempty
  | cons u us =>
    obtain ⟨vs, hvs, hmem⟩ := h
    exact ⟨vs, hvs, hmem, hus⟩

theorem spellable_of_mem (ts : List Token) (hmem : ts ∈ A) (hts : ∀ t ∈ ts, t.Lexed) :
    Spellable A :=
  ⟨⟨ts, hts, hmem⟩⟩

theorem spellable_of_nil_mem (h : [] ∈ A) : Spellable A := spellable_of_mem [] h (by simp)

instance : Spellable (1 : Language Token) := spellable_of_nil_mem Language.nil_mem_one

instance : Spellable (A∗) := spellable_of_nil_mem (Language.nil_mem_kstar A)

instance [Spellable A] [Spellable B] : Spellable (A * B) := ⟨Spellable.front.mul_right⟩

instance [Spellable A] : Spellable (A + B) := ⟨Spellable.front.mono le_self_add⟩

end

/-- One more round of a repetition. -/
theorem round_le (A B : Language Token) : A * (B * (A * B)∗) + 1 ≤ (A * B)∗ := by
  refine add_le ?_ one_le_kstar
  rw [← mul_assoc]
  exact mul_kstar_le_kstar

/-! ## Parts of rules -/

/-- The token that spells a terminal. -/
def terminalToken (text : String) : Token := ⟨terminalKind text, text, 0⟩

theorem terminalToken_mem (text : String) : [terminalToken text] ∈ Terminal text :=
  ⟨terminalToken text, ⟨rfl, rfl⟩, rfl⟩

theorem spellable_terminal {text : String} (h : (terminalToken text).Lexed) :
    Spellable (Terminal text) :=
  spellable_of_mem _ (terminalToken_mem text) (by simpa using h)

instance : Spellable (Terminal "(") := spellable_terminal ⟨[], rfl⟩

instance : Spellable (Terminal ")") := spellable_terminal ⟨[], rfl⟩

instance : Spellable (Terminal ",") := spellable_terminal ⟨[], rfl⟩

instance : Spellable (Terminal ":") := spellable_terminal ⟨[], rfl⟩

instance : Spellable (Terminal ";") := spellable_terminal ⟨[], rfl⟩

instance : Spellable (Terminal "DO") := spellable_terminal ⟨[], rfl⟩

instance : Spellable (Terminal "IN") := spellable_terminal ⟨[], rfl⟩

instance : Spellable (Terminal "END") := spellable_terminal ⟨[], rfl⟩

section
variable {L : Phrase α} {text : String}

theorem led_le : Terminal text * Words L ≤ Words (Led text L) := by
  rintro _ ⟨_, ⟨t, ht, rfl⟩, ts, ⟨a, ha⟩, rfl⟩
  exact ⟨a, .intro ht ha⟩

theorem optional_le : Words L + 1 ≤ Words (Optional L) := by
  rintro ts (⟨a, ha⟩ | rfl)
  · exact ⟨some a, .some ha⟩
  · exact ⟨none, .none⟩

theorem many_le : (Words L)∗ ≤ Words (Many L) := by
  refine kstar_le_of_mul_le_right ?_ ?_
  · rintro _ rfl
    exact ⟨[], .nil⟩
  · rintro _ ⟨ts, ⟨a, ha⟩, us, ⟨as, has⟩, rfl⟩
    exact ⟨a :: as, .cons ha has⟩

theorem listTail_le : (Terminal "," * Words L)∗ * Terminal ")" ≤ Words (ListTail L) := by
  refine kstar_mul_le ?_ ?_
  · rintro _ ⟨t, ht, rfl⟩
    exact ⟨[], .close ht⟩
  · rintro _ ⟨_, ⟨_, ⟨t, ht, rfl⟩, ts, ⟨a, ha⟩, rfl⟩, us, ⟨as, has⟩, rfl⟩
    exact ⟨a :: as, .cons ht ha has⟩

theorem enclosed_le :
    Terminal ")" + Words L * ((Terminal "," * Words L)∗ * Terminal ")") ≤ Words (Enclosed L) := by
  rintro _ (⟨t, ht, rfl⟩ | ⟨ts, ⟨a, ha⟩, us, hus, rfl⟩)
  · exact ⟨[], .close ht⟩
  · obtain ⟨as, has⟩ := listTail_le hus
    exact ⟨a :: as, .items ha has⟩

instance : Spellable (Words Identifier) :=
  spellable_of_mem [⟨.identifier, "x", 0⟩] ⟨"x", .intro rfl⟩
    (by simpa using ⟨[], rfl⟩)

instance : Spellable (Words (Optional L)) := spellable_of_nil_mem ⟨none, .none⟩

instance : Spellable (Words (Enclosed L)) := by
  refine spellable_of_mem [terminalToken ")"] ⟨[], .close ⟨rfl, rfl⟩⟩ ?_
  simpa using ⟨[], rfl⟩

end

/-! ## Expressions -/

section
variable {inner : Phrase Expr}

/-- The name of a member, and the arguments if it is called. -/
def MemberName (inner : Phrase Expr) : Language Token :=
  Words Identifier * (Terminal "(" * Words (Enclosed inner) + 1)

/-- A member of a receiver. -/
def Member (inner : Phrase Expr) : Language Token := Terminal "." * MemberName inner

theorem secondary_le : Words (Primary inner) * (Member inner)∗ ≤ Words (Secondary inner) := by
  refine mul_kstar_le ?_ ?_
  · rintro ts ⟨e, he⟩
    exact ⟨e, .primary he⟩
  · rintro _ ⟨ts, ⟨e, he⟩, _, ⟨_, ⟨d, hd, rfl⟩, _, ⟨xs, ⟨x, hx⟩, us, hus, rfl⟩, rfl⟩, rfl⟩
    have hmember : Led "." Identifier (d :: xs) x := .intro hd hx
    rcases hus with ⟨_, ⟨t, ht, rfl⟩, us, ⟨es, hes⟩, rfl⟩ | rfl
    · have hcall : Secondary inner (ts ++ ((d :: xs) ++ (t :: us))) (.methodCall .blank e x es) :=
        .methodCall he hmember (.intro ht hes)
      exact ⟨_, hcall⟩
    · simp only [List.append_nil]
      exact ⟨_, .field he hmember⟩

/-- One of the operators and the operand after it. -/
def Operation (operators : List BinaryOperator) (operand : Phrase Expr) : Language Token :=
  {ts | ∃ o ∈ operators, ts ∈ Terminal o.text * Words operand}

theorem chain_le {operators : List BinaryOperator} {operand : Phrase Expr} :
    Words operand * (Operation operators operand)∗ ≤ Words (Chain operators operand) := by
  refine mul_kstar_le ?_ ?_
  · rintro ts ⟨e, he⟩
    exact ⟨e, .operand he⟩
  · rintro _ ⟨ts, ⟨e, he⟩, us, ⟨o, ho, hus⟩, rfl⟩
    obtain ⟨e', he'⟩ := led_le hus
    exact ⟨_, .join he ho he'⟩

theorem anyExpression_le : Words (Logical AnyExpression) ≤ Words AnyExpression := by
  rintro ts ⟨e, he⟩
  exact ⟨e, .intro (fun _ _ h => h) he⟩

/-- The word `NIL` is an expression. -/
theorem nil_mem_anyExpression : [terminalToken "NIL"] ∈ Words AnyExpression := by
  have hprimary : Primary AnyExpression [terminalToken "NIL"] (.literal .blank .nil) :=
    .word (w := ("NIL", .nil)) (by simp [valueWords]) ⟨rfl, rfl⟩
  exact anyExpression_le ⟨_, .operand (.operand (.operand (.operand (.primary hprimary))))⟩

theorem lexed_nil : (terminalToken "NIL").Lexed := ⟨[], rfl⟩

instance : Spellable (Words AnyExpression) :=
  spellable_of_mem _ nil_mem_anyExpression (by simpa using lexed_nil)

end

/-! ## Statements -/

section
variable {expression : Phrase Expr} {statement : Phrase Stmt}

theorem block_le {ends : List String} (h : [] ∉ Words statement) :
    (Headed (·.text ∉ ends) (Words statement))∗ ≤ Words (Block statement ends) := by
  refine kstar_le_of_mul_le_right ?_ ?_
  · rintro _ rfl
    exact ⟨[], .nil⟩
  · rintro _ ⟨ts, ⟨hmem, hhead⟩, us, ⟨ss, hss⟩, rfl⟩
    cases ts with
    | nil => exact absurd hmem h
    | cons t ts =>
      obtain ⟨s, hs⟩ := hmem
      exact ⟨s :: ss, .cons (hhead t rfl) hs hss⟩

instance {ends : List String} : Spellable (Words (Block statement ends)) :=
  spellable_of_nil_mem ⟨[], .nil⟩

theorem declarationRest_le :
    Words Identifier * (Words (Optional (Led ":" Identifier)) *
      (Words (Optional (Led "=" expression)) * Terminal ";")) ≤
        Words (DeclarationRest expression) := by
  rintro _ ⟨us, ⟨x, hx⟩, _, ⟨vs, ⟨type, htype⟩, _, ⟨ws, ⟨value, hvalue⟩, _, ⟨t, ht, rfl⟩, rfl⟩,
    rfl⟩, rfl⟩
  exact ⟨_, .intro hx htype hvalue ht⟩

theorem branchRest_le :
    Words expression * (Terminal "DO" * (Words (Block statement ["ELSE", "END"]) *
      (Words (Optional (Led "ELSE" (Block statement ["END"]))) * Terminal "END"))) ≤
        Words (BranchRest expression statement) := by
  rintro _ ⟨us, ⟨c, hc⟩, _, ⟨_, ⟨d, hd, rfl⟩, _, ⟨vs, ⟨ss, hss⟩, _, ⟨ws, ⟨ss', hss'⟩, _,
    ⟨t, ht, rfl⟩, rfl⟩, rfl⟩, rfl⟩, rfl⟩
  exact ⟨_, .intro hc (.intro hd hss) hss' ht⟩

theorem forRest_le :
    Words Identifier * (Terminal "IN" * (Words expression * (Terminal "DO" *
      (Words (Block statement ["END"]) * Terminal "END")))) ≤
        Words (ForRest expression statement) := by
  rintro _ ⟨us, ⟨x, hx⟩, _, ⟨_, ⟨i, hi, rfl⟩, _, ⟨vs, ⟨e, he⟩, _, ⟨_, ⟨d, hd, rfl⟩, _,
    ⟨ws, ⟨ss, hss⟩, _, ⟨t, ht, rfl⟩, rfl⟩, rfl⟩, rfl⟩, rfl⟩, rfl⟩
  have h : ForRest expression statement (us ++ ((i :: vs) ++ ((d :: ws) ++ [t])))
      (.forEach x e ss) :=
    .intro hx (.intro hi he) (.intro hd hss) ht
  exact ⟨_, h⟩

theorem whileRest_le :
    Words expression * (Terminal "DO" * (Words (Block statement ["END"]) * Terminal "END")) ≤
      Words (WhileRest expression statement) := by
  rintro _ ⟨us, ⟨c, hc⟩, _, ⟨_, ⟨d, hd, rfl⟩, _, ⟨vs, ⟨ss, hss⟩, _, ⟨t, ht, rfl⟩, rfl⟩, rfl⟩, rfl⟩
  exact ⟨_, .intro hc (.intro hd hss) ht⟩

theorem returnRest_le : Words expression * Terminal ";" ≤ Words (ReturnRest expression) := by
  rintro _ ⟨us, ⟨e, he⟩, _, ⟨t, ht, rfl⟩, rfl⟩
  exact ⟨_, .intro he ht⟩

theorem expressionOrAssignment_le :
    Words expression * (Words (Optional (Led "=" expression)) * Terminal ";") ≤
      Words (ExpressionOrAssignment expression) := by
  rintro _ ⟨us, ⟨e, he⟩, _, ⟨vs, ⟨value, hvalue⟩, _, ⟨t, ht, rfl⟩, rfl⟩, rfl⟩
  cases hvalue with
  | none => exact ⟨_, .expression he ht⟩
  | some h => exact ⟨_, .assignment he h ht⟩

theorem statementOf_le :
    Terminal "LET" * Words (DeclarationRest expression) +
      (Terminal "IF" * Words (BranchRest expression statement) +
      (Terminal "FOR" * Words (ForRest expression statement) +
      (Terminal "WHILE" * Words (WhileRest expression statement) +
      (Terminal "RETURN" * Words (ReturnRest expression) +
      Headed (·.text ∉ statementWords) (Words (ExpressionOrAssignment expression)))))) ≤
        Words (StatementOf expression statement) := by
  rintro ts (h | h | h | h | h | ⟨⟨s, hs⟩, hhead⟩)
  · obtain ⟨d, hd⟩ := led_le h
    exact ⟨_, .declaration hd⟩
  · obtain ⟨s, hs⟩ := led_le h
    exact ⟨s, .branch hs⟩
  · obtain ⟨s, hs⟩ := led_le h
    exact ⟨s, .forEach hs⟩
  · obtain ⟨s, hs⟩ := led_le h
    exact ⟨s, .loop hs⟩
  · obtain ⟨s, hs⟩ := led_le h
    exact ⟨s, .ret hs⟩
  · cases ts with
    | nil => exact absurd rfl (Parse.expressionOrAssignment_ne_nil hs)
    | cons t ts => exact ⟨s, .other (hhead t rfl) hs⟩

theorem anyStatement_le :
    Words (StatementOf AnyExpression AnyStatement) ≤ Words AnyStatement := by
  rintro ts ⟨s, hs⟩
  exact ⟨s, .intro (fun _ _ h => h) (fun _ _ h => h) hs⟩

theorem nil_notMem_anyStatement : [] ∉ Words AnyStatement := by
  rintro ⟨s, -, -, hs⟩
  cases hs with
  | declaration h | branch h | forEach h | loop h | ret h => cases h

/-- An expression statement can be completed from nothing, starting with `NIL`. -/
theorem front_expressionOrAssignment {Q : Token → Prop} (h : Q (terminalToken "NIL")) :
    Front (Headed Q (Words (ExpressionOrAssignment AnyExpression))) [] := by
  obtain ⟨e, he⟩ := nil_mem_anyExpression
  refine ⟨[terminalToken "NIL"] ++ [terminalToken ";"], ?_, ⟨_, .expression he ⟨rfl, rfl⟩⟩, ?_⟩
  · simpa using ⟨lexed_nil, [], rfl⟩
  · rintro t ⟨⟩
    exact h

theorem front_anyStatement {Q : Token → Prop} (h : Q (terminalToken "NIL")) :
    Front (Headed Q (Words AnyStatement)) [] := by
  have hQ : Q (terminalToken "NIL") ∧ (terminalToken "NIL").text ∉ statementWords :=
    ⟨h, by decide⟩
  obtain ⟨vs, hvs, ⟨s, hs⟩, hhead⟩ := front_expressionOrAssignment (Q := fun t =>
    Q t ∧ t.text ∉ statementWords) hQ
  refine ⟨vs, hvs, ?_, fun t ht => (hhead t ht).1⟩
  refine anyStatement_le (statementOf_le ?_)
  exact Or.inr (Or.inr (Or.inr (Or.inr (Or.inr ⟨⟨s, hs⟩, fun t ht => (hhead t ht).2⟩))))

end

/-! ## Programs -/

theorem fieldOf_le {expression : Phrase Expr} :
    Words Identifier * (Terminal ":" * (Words Identifier *
      (Words (Optional (Led "=" expression)) * Terminal ";"))) ≤ Words (FieldOf expression) := by
  rintro _ ⟨us, ⟨x, hx⟩, _, ⟨_, ⟨c, hc, rfl⟩, _, ⟨vs, ⟨type, htype⟩, _, ⟨ws, ⟨value, hvalue⟩, _,
    ⟨t, ht, rfl⟩, rfl⟩, rfl⟩, rfl⟩, rfl⟩
  exact ⟨_, .intro hx (.intro hc htype) hvalue ht⟩

theorem parameterRule_le :
    Words Identifier * Words (Optional (Led ":" Identifier)) ≤ Words ParameterRule := by
  rintro _ ⟨us, ⟨x, hx⟩, vs, ⟨type, htype⟩, rfl⟩
  exact ⟨_, .intro hx htype⟩

theorem methodOf_le {statement : Phrase Stmt} :
    Words Identifier * (Terminal "(" * (Words (Enclosed ParameterRule) *
      (Words (Optional (Led ":" Identifier)) * (Terminal "DO" *
        (Words (Block statement ["END"]) * Terminal "END"))))) ≤ Words (MethodOf statement) := by
  rintro _ ⟨us, ⟨f, hf⟩, _, ⟨_, ⟨o, ho, rfl⟩, _, ⟨vs, ⟨ps, hps⟩, _, ⟨ws, ⟨type, htype⟩, _,
    ⟨_, ⟨d, hd, rfl⟩, _, ⟨xs, ⟨ss, hss⟩, _, ⟨t, ht, rfl⟩, rfl⟩, rfl⟩, rfl⟩, rfl⟩, rfl⟩, rfl⟩
  have h : MethodOf statement (us ++ ((o :: vs) ++ (ws ++ ((d :: xs) ++ [t]))))
      ⟨.blank, f, ps, type, ss⟩ :=
    .intro hf (.intro ho hps) htype (.intro hd hss) ht
  exact ⟨_, h⟩

theorem unlimited_le :
    Words (Many (Led "LET" (FieldOf AnyExpression))) *
      Words (Many (Led "DEF" (MethodOf AnyStatement))) ≤ Words Unlimited := by
  rintro _ ⟨us, ⟨fs, hfs⟩, vs, ⟨ms, hms⟩, rfl⟩
  exact ⟨_, .intro hfs hms⟩

instance : Spellable (Words ParameterRule) :=
  ⟨(Spellable.front (A := Words Identifier * Words (Optional _))).mono parameterRule_le⟩

instance {L : Phrase α} : Spellable (Words (Many L)) := spellable_of_nil_mem ⟨[], .nil⟩

end Grammar

end TinyScript
