import TinyScript.Proofs.Tree.Grammar

/-
  Expressions along their tokens.

  `Expr.Spans` goes along an expression and the tokens that it was read from, and says for every
  expression in it by which token it could be known: a member of an object by the member's name,
  any other expression by its first token.  Whether it is known by that token is left open, so
  that what holds of the parser and what one might expect of it are said in the same words.

  They differ: a binary operation takes its offset from its left operand, so one that has a
  member of an object at the far left is known by that member's name.

  * `Expr.Spans`: expressions along the tokens they were read from;
  * `Expr.KnownBy`: the token that an expression is known by;
  * `Expr.Along`: both at once, for expressions that a grammar derives.
-/

namespace TinyScript

open Grammar

/-! ## Lists of trees -/

section
variable {α β : Type} {L : Phrase α} {M : Phrase β} {f : α → β}

theorem Grammar.ListTail.map (h : ∀ ts a, L ts a → M ts (f a)) {ts : List Token} {as : List α}
    (has : ListTail L ts as) : ListTail M ts (as.map f) := by
  induction has with
  | close ht => exact .close ht
  | cons ht ha _ ih => exact .cons ht (h _ _ ha) ih

theorem Grammar.Enclosed.map (h : ∀ ts a, L ts a → M ts (f a)) {ts : List Token} {as : List α}
    (has : Enclosed L ts as) : Enclosed M ts (as.map f) := by
  cases has with
  | close ht => exact .close ht
  | items ha has => exact .items (h _ _ ha) (has.map h)

end

theorem Grammar.Enclosed.mono {α : Type} {L M : Phrase α} (h : ∀ ts a, L ts a → M ts a)
    {ts : List Token} {as : List α} (has : Enclosed L ts as) : Enclosed M ts as := by
  rw [← List.map_id as]
  exact has.map (f := id) h

theorem Expr.bareList_eq_map (es : List Expr) : Expr.bareList es = es.map Expr.bare := by
  induction es with
  | nil => rfl
  | cons e es ih => rw [Expr.bareList, ih, List.map_cons]

mutual

/-- Blank nodes do not change the height. -/
theorem Expr.height_bare : (e : Expr) → e.bare.height = e.height
  | .literal _ _ | .var _ _ => rfl
  | .group _ inner => by rw [bare, height, height, height_bare inner]
  | .binary _ _ left right => by
    rw [bare, height, height, height_bare left, height_bare right]
  | .field _ receiver _ => by rw [bare, height, height, height_bare receiver]
  | .call _ _ es => by rw [bare, height, height, heightList_bare es]
  | .methodCall _ receiver _ es => by
    rw [bare, height, height, height_bare receiver, heightList_bare es]
termination_by structural e => e

theorem Expr.heightList_bare : (es : List Expr) →
    Expr.heightList (Expr.bareList es) = Expr.heightList es
  | [] => rfl
  | e :: es => by rw [bareList, heightList, heightList, height_bare e, heightList_bare es]
termination_by structural es => es

end

/-! ## Expressions along their tokens -/

/-- The tokens that an expression was read from, where every expression in it has the property
    `P` together with the token that it could be known by: the name of a member, and otherwise
    the first token. -/
inductive Expr.Spans (P : Token → Expr → Prop) : Phrase Expr
  | word {t n w} : w ∈ valueWords → Token.Is t w.1 → P t (.literal n w.2) →
      Expr.Spans P [t] (.literal n w.2)
  | literal {t : Token} {n value} : t.isLiteral = true → Literal.ofToken? t = some value →
      P t (.literal n value) → Expr.Spans P [t] (.literal n value)
  | group {t ts t' n e} : Token.Is t "(" → Expr.Spans P ts e → Token.Is t' ")" →
      P t (.group n e) → Expr.Spans P (t :: (ts ++ [t'])) (.group n e)
  | var {t n} : IsName t → P t (.var n t.text) → Expr.Spans P [t] (.var n t.text)
  | call {t ts n es} : IsName t → Led "(" (Enclosed (Expr.Spans P)) ts es →
      P t (.call n t.text es) → Expr.Spans P (t :: ts) (.call n t.text es)
  | field {ts d t n e} : Expr.Spans P ts e → Token.Is d "." → t.kind = .identifier →
      P t (.field n e t.text) → Expr.Spans P (ts ++ [d, t]) (.field n e t.text)
  | methodCall {ts d t us n e es} : Expr.Spans P ts e → Token.Is d "." → t.kind = .identifier →
      Led "(" (Enclosed (Expr.Spans P)) us es → P t (.methodCall n e t.text es) →
      Expr.Spans P (ts ++ (d :: t :: us)) (.methodCall n e t.text es)
  | binary {t ts t' us n o left right} : Expr.Spans P (t :: ts) left →
      Token.Is t' (BinaryOperator.text o) → Expr.Spans P us right →
      P t (.binary n o left right) → Expr.Spans P (t :: (ts ++ t' :: us)) (.binary n o left right)

/-! ## The tokens that expressions are known by -/

/-- Whether the expression is a member of an object. -/
def Expr.isMember : Expr → Bool
  | .field .. | .methodCall .. => true
  | _ => false

/-- The operand at the far left: that of the left operand of a binary operation, and any other
    expression itself. -/
def Expr.leftmost : Expr → Expr
  | .binary _ _ left _ => left.leftmost
  | e => e

/-- The expression has the offset of the token; but a binary operation that has a member of an
    object at the far left has the offset of that member. -/
def Expr.KnownBy (t : Token) (e : Expr) : Prop :=
  e.offset = if e.isBinary && e.leftmost.isMember then e.leftmost.offset else t.offset

theorem Expr.Spans.ne_nil {P : Token → Expr → Prop} {ts : List Token} {e : Expr}
    (h : e.Spans P ts) : ts ≠ [] := by
  cases h with
  | field | methodCall => simp
  | _ => exact List.cons_ne_nil _ _

/-- The tokens of a field of an object begin with those of the object. -/
theorem Expr.Spans.of_field {P : Token → Expr → Prop} {ts : List Token} {n : Node} {e : Expr}
    {x : String} (h : Expr.Spans P ts (.field n e x)) :
    ∃ us vs, ts = us ++ vs ∧ Expr.Spans P us e := by
  generalize he : Expr.field n e x = e' at h
  cases h <;> cases he
  case field => exact ⟨_, _, rfl, ‹_›⟩

/-- A variable is a single token. -/
theorem Expr.Spans.of_var {P : Token → Expr → Prop} {ts : List Token} {n : Node} {x : String}
    (h : Expr.Spans P ts (.var n x)) : ∃ t, ts = [t] ∧ P t (.var n x) := by
  generalize he : Expr.var n x = e at h
  cases h <;> cases he
  case var t _ hP => exact ⟨t, rfl, hP⟩

/-- An expression has the offset of its first token, or of the member at the far left. -/
theorem Expr.Spans.offset_eq {t : Token} {ts : List Token} {e : Expr}
    (h : Expr.Spans Expr.KnownBy (t :: ts) e) :
    e.offset = if e.leftmost.isMember then e.leftmost.offset else t.offset := by
  generalize hts : t :: ts = us at h
  cases h with
  | field | methodCall => rfl
  | binary _ _ _ hknown =>
    obtain ⟨rfl, -⟩ := List.cons.inj hts
    exact hknown
  | word _ _ hknown | literal _ _ hknown | group _ _ _ hknown | var _ hknown | call _ _ hknown =>
    obtain ⟨rfl, -⟩ := List.cons.inj hts
    exact hknown

/-- The tokens derive the expression, and each expression in it is known by the token that it
    is known by. -/
def Expr.Along (L : Phrase Expr) : Phrase Expr :=
  fun ts e => L ts e.bare ∧ Expr.Spans Expr.KnownBy ts e

/-- The arguments of a call along their tokens. -/
theorem Expr.along_arguments {L : Phrase Expr} {ts : List Token} {es : List Expr}
    (h : Led "(" (Enclosed (Expr.Along L)) ts es) :
    Led "(" (Enclosed L) ts (Expr.bareList es) ∧
      Led "(" (Enclosed (Expr.Spans Expr.KnownBy)) ts es := by
  obtain ⟨ht, hes⟩ := h
  rw [Expr.bareList_eq_map]
  exact ⟨.intro ht (hes.map fun _ _ h => h.1), .intro ht (hes.mono fun _ _ h => h.2)⟩

end TinyScript
