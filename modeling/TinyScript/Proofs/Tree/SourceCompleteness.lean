import TinyScript.Proofs.Tree.ExprCompleteness

/-
  Every program that the grammar derives is accepted, and the parser accepts nothing else
  (`parse_iff_derives`).
-/

namespace TinyScript

open Grammar

namespace Parse

variable {α β : Type} {s : ParserState}

/-! ## Statements -/

/-- An optional part starts with its terminal, if it is there. -/
theorem stops_optional {text : String} {L : Phrase α} {ts rest : List Token} {a : Option α}
    {texts : List String} (h : Optional (Led text L) ts a) (htext : text ∉ texts)
    (hrest : Stops texts rest) : Stops texts (ts ++ rest) := by
  cases h with
  | none => exact hrest
  | some h =>
    cases h with
    | intro ht _ => exact ht.stops htext

section
variable {room : Nat} {expression : Parse Expr} {statement : Parse Stmt} {L : Phrase Expr}
  {M : Phrase Stmt}

theorem atEnd_of_rest {ends : List String} {t : Token} {ts : List Token}
    (hrest : s.rest = t :: ts) :
    atEnd ends s = .ok (ends.any fun x => t.text == x) s := by
  have hpeek : (fun x => s.stream.peek (.text x)) = fun x => t.text == x :=
    funext fun x => peek_of_rest hrest x
  simp [atEnd, next?_of_rest hrest, hpeek]

theorem reads_statementsUpTo (hst : Reads room statement M Stmt.Is [])
    {ends : List String} {ts rest : List Token} {bs : List Stmt} (h : Block M ends ts bs)
    {t : Token} (ht : t.text ∈ ends) {bound : List Token} (hs : s.Admits room)
    (hrest : s.rest = ts ++ t :: rest) (hbound : s.rest.length ≤ bound.length) :
    ∃ ss s', statementsUpTo statement ends bound s = .ok ss s' ∧ s'.Admits room ∧
      s'.rest = t :: rest ∧ List.Forall₂ Stmt.Is ss bs := by
  induction h generalizing s bound with
  | nil =>
    refine ⟨[], s, ?_, hs, hrest, .nil⟩
    cases bound with
    | nil => rfl
    | cons _ bound =>
      have hany : (ends.any fun x => t.text == x) = true :=
        List.any_eq_true.2 ⟨t.text, ht, beq_self_eq_true _⟩
      rw [statementsUpTo, bind_of_ok (atEnd_of_rest hrest), hany]
      rfl
  | @cons u ts us b bs hu hb hbs ih =>
    cases bound with
    | nil =>
      rw [hrest] at hbound
      simp at hbound
    | cons _ bound =>
      have hrest' : s.rest = (u :: ts) ++ (us ++ t :: rest) := by
        rw [hrest]
        simp
      obtain ⟨st, s₁, hst', hs₁, hrest₁, hR⟩ :=
        hst s (u :: ts) b _ hs hrest' hb (stops_nil _)
      have hlen : s₁.rest.length ≤ bound.length := by
        rw [hrest'] at hbound
        rw [hrest₁]
        simp only [List.length_cons, List.length_append] at hbound ⊢
        omega
      obtain ⟨ss, s₂, hss, hs₂, hrest₂, hRs⟩ := ih hs₁ hrest₁ hlen
      refine ⟨st :: ss, s₂, ?_, hs₂, hrest₂, .cons hR hRs⟩
      have hany : (ends.any fun x => u.text == x) = false := by
        refine List.any_eq_false.2 fun x hx => ?_
        rw [beq_iff_eq]
        rintro rfl
        exact hu hx
      rw [statementsUpTo, bind_of_ok (atEnd_of_rest hrest'), hany]
      simp only [Bool.false_eq_true, ↓reduceIte]
      rw [bind_of_ok hst', bind_of_ok hss]
      rfl

/-- A block up to one of the words that end it. -/
theorem reads_block (hst : Reads room statement M Stmt.Is []) {ends : List String}
    {ts rest : List Token} {bs : List Stmt} (h : Block M ends ts bs) {t : Token}
    (ht : t.text ∈ ends) (hs : s.Admits room) (hrest : s.rest = ts ++ t :: rest) :
    ∃ ss s', block statement ends s = .ok ss s' ∧ s'.Admits room ∧ s'.rest = t :: rest ∧
      Stmt.bareList ss = bs := by
  obtain ⟨ss, s', hss, hs', hrest', hR⟩ := reads_statementsUpTo hst h ht hs hrest (Nat.le_refl _)
  refine ⟨ss, s', ?_, hs', hrest', ?_⟩
  · rw [block, stream_bind]
    exact hss
  · rw [Stmt.bareList_eq_map, map_eq_of_forall₂ hR]

theorem reads_declaration (he : Reads room expression L Expr.Is continuations) :
    Reads room (declaration expression) (DeclarationRest L) Declaration.Is [] := by
  intro s ts b rest hs hrest h _
  cases h with
  | @intro us vs ws x type value t hx htype hvalue ht =>
    simp only [List.append_assoc, List.cons_append, List.nil_append] at hrest
    obtain ⟨y, s₁, hname, hs₁, hrest₁, rfl⟩ :=
      reads_expectName "a variable name" [] s us x _ hs hrest hx (stops_nil _)
    obtain ⟨type', s₂, htype', hs₂, hrest₂, hR₂⟩ :=
      reads_optionalAfter (reads_expectName "a variable type" []) ":" s₁ vs type _ hs₁ hrest₁ htype
        (stops_optional hvalue (by decide) (ht.stops (by decide)))
    obtain ⟨value', s₃, hvalue', hs₃, hrest₃, hR₃⟩ :=
      reads_optionalAfter he "=" s₂ ws value _ hs₂ hrest₂ hvalue (ht.stops (by decide))
    obtain ⟨hsemi, hrest₄⟩ := reads_expectText hrest₃ ht
    have hrun : declaration expression s =
        .ok ⟨⟨s₃.next.nextId, s.stream.previousOffset⟩, y, type', value'⟩ s₃.next.bump := by
      rw [declaration, stream_bind, bind_of_ok hname, bind_of_ok htype', bind_of_ok hvalue',
        bind_of_ok (hsemi _), freshId_bind]
      rfl
    refine ⟨_, _, hrun, hs₃.next.bump, hrest₄, ?_⟩
    simp only [Declaration.Is, Declaration.bare, eq_of_rel hR₂, map_eq_of_rel hR₃]

theorem reads_branch (he : Reads room expression L Expr.Is continuations)
    (hst : Reads room statement M Stmt.Is []) :
    Reads room (branch expression statement) (BranchRest L M) Stmt.Is [] := by
  intro s ts b rest hs hrest h _
  cases h with
  | @intro us vs ws c bs bs' t hc hbs hbs' ht =>
    simp only [List.append_assoc, List.cons_append, List.nil_append] at hrest
    cases hbs with
    | @intro d vs _ hd hbs =>
      obtain ⟨c', s₁, hc', hs₁, hrest₁, hR₁⟩ := he s us c _ hs hrest hc (hd.stops (by decide))
      obtain ⟨hdo, hrest₂⟩ := reads_expectText hrest₁ hd
      cases hbs' with
      | none =>
        obtain ⟨ss, s₂, hss, hs₂, hrest₃, hR₂⟩ :=
          reads_block hst hbs (t := t) (by rw [ht.1]; decide) hs₁.next hrest₂
        have hno : s₂.stream.peek (.text "ELSE") = false := by
          rw [peek_of_rest hrest₃, ht.1]
          decide
        obtain ⟨hend, hrest₄⟩ := reads_expectText hrest₃ ht
        have hrun : branch expression statement s = .ok (.branch c' ss []) s₂.next := by
          rw [branch, bind_of_ok hc', bind_of_ok (hdo _), bind_of_ok hss,
            bind_of_ok (optionalAfter_eq_ok.2 (Or.inl ⟨hno, rfl, rfl⟩)), bind_of_ok (hend _)]
          rfl
        refine ⟨_, _, hrun, hs₂.next, hrest₄, ?_⟩
        simp only [Stmt.Is, Stmt.bare, hR₁, hR₂, Stmt.bareList, Option.getD_none]
      | @some ws bs' hbs' =>
        cases hbs' with
        | @intro el ws _ hel hbs' =>
          obtain ⟨ss, s₂, hss, hs₂, hrest₃, hR₂⟩ :=
            reads_block hst hbs (t := el) (by rw [hel.1]; decide) hs₁.next hrest₂
          have helse : s₂.stream.peek (.text "ELSE") = true := by
            rw [peek_of_rest hrest₃, hel.1, beq_self_eq_true]
          obtain ⟨ss', s₃, hss', hs₃, hrest₄, hR₃⟩ := reads_block hst hbs' (t := t)
            (by rw [ht.1]; decide) hs₂.next (rest_next_of_rest hrest₃)
          obtain ⟨hend, hrest₅⟩ := reads_expectText hrest₄ ht
          have hrun : branch expression statement s = .ok (.branch c' ss ss') s₃.next := by
            rw [branch, bind_of_ok hc', bind_of_ok (hdo _), bind_of_ok hss,
              bind_of_ok (optionalAfter_eq_ok.2 (Or.inr ⟨helse, ss', rfl, hss'⟩)),
              bind_of_ok (hend _)]
            rfl
          refine ⟨_, _, hrun, hs₃.next, hrest₅, ?_⟩
          simp only [Stmt.Is, Stmt.bare, hR₁, hR₂, hR₃, Option.getD_some]

theorem reads_forEach (he : Reads room expression L Expr.Is continuations)
    (hst : Reads room statement M Stmt.Is []) :
    Reads room (forEach expression statement) (ForRest L M) Stmt.Is [] := by
  intro s ts b rest hs hrest h _
  cases h with
  | @intro us vs ws x b bs t hx hb hbs ht =>
    simp only [List.append_assoc, List.cons_append, List.nil_append] at hrest
    cases hbs with
    | @intro d ws _ hd hbs =>
      obtain ⟨y, s₁, hname, hs₁, hrest₁, rfl⟩ :=
        reads_expectName "a loop variable" [] s us x _ hs hrest hx (stops_nil _)
      obtain ⟨-, hin, e, s₂, he', hs₂, hrest₂, hR₂⟩ := he.led hs₁ hrest₁ hb (hd.stops (by decide))
      obtain ⟨hdo, hrest₃⟩ := reads_expectText hrest₂ hd
      obtain ⟨ss, s₃, hss, hs₃, hrest₄, hR₃⟩ :=
        reads_block hst hbs (t := t) (by rw [ht.1]; decide) hs₂.next hrest₃
      obtain ⟨hend, hrest₅⟩ := reads_expectText hrest₄ ht
      have hrun : forEach expression statement s = .ok (.forEach y e ss) s₃.next := by
        rw [forEach, bind_of_ok hname, bind_of_ok (hin _), bind_of_ok he', bind_of_ok (hdo _),
          bind_of_ok hss, bind_of_ok (hend _)]
        rfl
      refine ⟨_, _, hrun, hs₃.next, hrest₅, ?_⟩
      simp only [Stmt.Is, Stmt.bare, hR₂, hR₃]

theorem reads_loop (he : Reads room expression L Expr.Is continuations)
    (hst : Reads room statement M Stmt.Is []) :
    Reads room (loop expression statement) (WhileRest L M) Stmt.Is [] := by
  intro s ts b rest hs hrest h _
  cases h with
  | @intro us vs c bs t hc hbs ht =>
    simp only [List.append_assoc, List.cons_append, List.nil_append] at hrest
    cases hbs with
    | @intro d vs _ hd hbs =>
      obtain ⟨c', s₁, hc', hs₁, hrest₁, hR₁⟩ := he s us c _ hs hrest hc (hd.stops (by decide))
      obtain ⟨hdo, hrest₂⟩ := reads_expectText hrest₁ hd
      obtain ⟨ss, s₂, hss, hs₂, hrest₃, hR₂⟩ :=
        reads_block hst hbs (t := t) (by rw [ht.1]; decide) hs₁.next hrest₂
      obtain ⟨hend, hrest₄⟩ := reads_expectText hrest₃ ht
      have hrun : loop expression statement s = .ok (.loop c' ss) s₂.next := by
        rw [loop, bind_of_ok hc', bind_of_ok (hdo _), bind_of_ok hss, bind_of_ok (hend _)]
        rfl
      refine ⟨_, _, hrun, hs₂.next, hrest₄, ?_⟩
      simp only [Stmt.Is, Stmt.bare, hR₁, hR₂]

theorem reads_ret (he : Reads room expression L Expr.Is continuations) :
    Reads room (ret expression) (ReturnRest L) Stmt.Is [] := by
  intro s ts b rest hs hrest h _
  cases h with
  | @intro us b t hb ht =>
    simp only [List.append_assoc, List.cons_append, List.nil_append] at hrest
    obtain ⟨e, s₁, he', hs₁, hrest₁, hR⟩ := he s us b _ hs hrest hb (ht.stops (by decide))
    obtain ⟨hsemi, hrest₂⟩ := reads_expectText hrest₁ ht
    have hrun : ret expression s = .ok (.ret s.stream.previousOffset e) s₁.next := by
      rw [ret, stream_bind, bind_of_ok he', bind_of_ok (hsemi _)]
      rfl
    refine ⟨_, _, hrun, hs₁.next, hrest₂, ?_⟩
    simp only [Stmt.Is, Stmt.bare, hR]

theorem reads_expressionOrAssignment
    (he : Reads room expression L Expr.Is continuations) :
    Reads room (expressionOrAssignment expression) (ExpressionOrAssignment L) Stmt.Is
      [] := by
  intro s ts b rest hs hrest h _
  cases h with
  | @expression us b t hb ht =>
    simp only [List.append_assoc, List.cons_append, List.nil_append] at hrest
    obtain ⟨e, s₁, he', hs₁, hrest₁, hR⟩ := he s us b _ hs hrest hb (ht.stops (by decide))
    have hno : s₁.stream.peek (.text "=") = false := by
      rw [peek_of_rest hrest₁, ht.1]
      decide
    obtain ⟨hsemi, hrest₂⟩ := reads_expectText hrest₁ ht
    have hrun : expressionOrAssignment expression s = .ok (.expression e) s₁.next := by
      rw [expressionOrAssignment, bind_of_ok he',
        bind_of_ok (optionalAfter_eq_ok.2 (Or.inl ⟨hno, rfl, rfl⟩)), bind_of_ok (hsemi _)]
      rfl
    refine ⟨_, _, hrun, hs₁.next, hrest₂, ?_⟩
    simp only [Stmt.Is, Stmt.bare, hR]
  | @assignment us vs b b' t hb hb' ht =>
    simp only [List.append_assoc, List.cons_append, List.nil_append] at hrest
    have hstop : Stops continuations (vs ++ t :: rest) := by
      cases hb' with
      | intro heq _ => exact heq.stops (by decide)
    obtain ⟨e, s₁, he', hs₁, hrest₁, hR⟩ := he s us b _ hs hrest hb hstop
    obtain ⟨heq, -, e', s₂, he'', hs₂, hrest₂, hR'⟩ := he.led hs₁ hrest₁ hb' (ht.stops (by decide))
    obtain ⟨hsemi, hrest₃⟩ := reads_expectText hrest₂ ht
    have hrun : expressionOrAssignment expression s = .ok (.assign e e') s₂.next := by
      rw [expressionOrAssignment, bind_of_ok he',
        bind_of_ok (optionalAfter_eq_ok.2 (Or.inr ⟨heq, e', rfl, he''⟩)), bind_of_ok (hsemi _)]
      rfl
    refine ⟨_, _, hrun, hs₂.next, hrest₃, ?_⟩
    simp only [Stmt.Is, Stmt.bare, hR, hR']

/-- The first token decides what a statement is. -/
theorem statementOf_of_rest {t : Token} {ts : List Token} (hrest : s.rest = t :: ts) :
    statementOf expression statement s =
      if t.text = "LET" then (do return Stmt.declare (← declaration expression)) s.next
      else if t.text = "IF" then branch expression statement s.next
      else if t.text = "FOR" then forEach expression statement s.next
      else if t.text = "WHILE" then loop expression statement s.next
      else if t.text = "RETURN" then ret expression s.next
      else expressionOrAssignment expression s := by
  rw [statementOf, acceptText_bind, peek_of_rest hrest]
  by_cases hlet : t.text = "LET"
  · simp [hlet]
  · simp only [hlet, beq_iff_eq, Bool.false_eq_true, ↓reduceIte, acceptText_bind,
      peek_of_rest hrest]

theorem reads_statementOf (he : Reads room expression L Expr.Is continuations)
    (hst : Reads room statement M Stmt.Is []) :
    Reads room (statementOf expression statement) (StatementOf L M) Stmt.Is [] := by
  intro s ts b rest hs hrest h hstop
  cases h with
  | declaration h =>
    obtain ⟨-, -, d, s', hd, hs', hrest', hR⟩ := (reads_declaration he).led hs hrest h hstop
    cases h with
    | intro ht _ =>
      refine ⟨.declare d, s', ?_, hs', hrest', by simp only [Stmt.Is, Stmt.bare, hR]⟩
      rw [statementOf_of_rest hrest, ht.1, if_pos rfl, bind_of_ok hd]
      rfl
  | branch h =>
    obtain ⟨-, -, st, s', hst', hs', hrest', hR⟩ := (reads_branch he hst).led hs hrest h hstop
    cases h with
    | intro ht _ =>
      refine ⟨st, s', ?_, hs', hrest', hR⟩
      rw [statementOf_of_rest hrest, ht.1]
      exact hst'
  | forEach h =>
    obtain ⟨-, -, st, s', hst', hs', hrest', hR⟩ := (reads_forEach he hst).led hs hrest h hstop
    cases h with
    | intro ht _ =>
      refine ⟨st, s', ?_, hs', hrest', hR⟩
      rw [statementOf_of_rest hrest, ht.1]
      exact hst'
  | loop h =>
    obtain ⟨-, -, st, s', hst', hs', hrest', hR⟩ := (reads_loop he hst).led hs hrest h hstop
    cases h with
    | intro ht _ =>
      refine ⟨st, s', ?_, hs', hrest', hR⟩
      rw [statementOf_of_rest hrest, ht.1]
      exact hst'
  | ret h =>
    obtain ⟨-, -, st, s', hst', hs', hrest', hR⟩ := (reads_ret he).led hs hrest h hstop
    cases h with
    | intro ht _ =>
      refine ⟨st, s', ?_, hs', hrest', hR⟩
      rw [statementOf_of_rest hrest, ht.1]
      exact hst'
  | other ht h =>
    obtain ⟨st, s', hst', hs', hrest', hR⟩ :=
      reads_expressionOrAssignment he s _ b rest hs hrest h hstop
    simp only [statementWords, List.mem_cons, List.not_mem_nil, or_false, not_or] at ht
    obtain ⟨hlet, hif, hfor, hwhile, hreturn⟩ := ht
    refine ⟨st, s', ?_, hs', hrest', hR⟩
    rw [statementOf_of_rest hrest, if_neg hlet, if_neg hif, if_neg hfor, if_neg hwhile,
      if_neg hreturn, hst']

end

theorem reads_statement (room : Nat) :
    Reads room (statement room) (Statement room) Stmt.Is [] := by
  induction room with
  | zero => exact fun _ _ _ _ _ _ h => h.elim
  | succ room ih => exact (reads_statementOf (reads_expression room) ih).nested

/-! ## Programs -/

theorem reads_field :
    Reads nestingLimit field (FieldOf (Expression nestingLimit)) Field.Is [] := by
  intro s ts b rest hs hrest h _
  cases h with
  | @intro us vs ws x type value t hx htype hvalue ht =>
    simp only [List.append_assoc, List.cons_append, List.nil_append] at hrest
    obtain ⟨y, s₁, hname, hs₁, hrest₁, rfl⟩ :=
      reads_expectName "a field name" [] s us x _ hs hrest hx (stops_nil _)
    obtain ⟨-, hcolon, type', s₂, htype', hs₂, hrest₂, rfl⟩ :=
      (reads_expectName "a field type" []).led hs₁ hrest₁ htype (stops_nil _)
    obtain ⟨value', s₃, hvalue', hs₃, hrest₃, hR₃⟩ :=
      reads_optionalAfter (reads_expression nestingLimit) "=" s₂ ws value _ hs₂ hrest₂ hvalue
        (ht.stops (by decide))
    obtain ⟨hsemi, hrest₄⟩ := reads_expectText hrest₃ ht
    have hrun : field s =
        .ok ⟨⟨s₃.next.nextId, s.stream.previousOffset⟩, y, type', value'⟩ s₃.next.bump := by
      rw [field, stream_bind, bind_of_ok hname, bind_of_ok (hcolon _), bind_of_ok htype',
        bind_of_ok hvalue', bind_of_ok (hsemi _), freshId_bind]
      rfl
    refine ⟨_, _, hrun, hs₃.next.bump, hrest₄, ?_⟩
    simp only [Field.Is, Field.bare, map_eq_of_rel hR₃]

theorem reads_parameter {room : Nat} : Reads room parameter ParameterRule Eq [":"] := by
  intro s ts b rest hs hrest h hstop
  cases h with
  | @intro us vs x type hx htype =>
    rw [List.append_assoc] at hrest
    obtain ⟨y, s₁, hname, hs₁, hrest₁, rfl⟩ :=
      reads_expectName "a parameter name" [] s us x _ hs hrest hx (stops_nil _)
    obtain ⟨type', s₂, htype', hs₂, hrest₂, hR₂⟩ :=
      reads_optionalAfter (reads_expectName "a parameter type" []) ":" s₁ vs type _ hs₁ hrest₁
        htype hstop
    have hrun : parameter s = .ok ⟨y, type'⟩ s₂ := by
      rw [parameter, bind_of_ok hname, bind_of_ok htype']
      rfl
    refine ⟨_, _, hrun, hs₂, hrest₂, ?_⟩
    rw [eq_of_rel hR₂]

theorem avoids_parameter : Avoids ParameterRule ")" := by
  intro ts b hlexed h
  cases h with
  | intro hx _ =>
    cases hx with
    | @intro t hkind =>
      refine ⟨t, _, rfl, fun htext => ?_⟩
      have hop := ((hlexed t (by simp)).is htext (by decide)).2
      rw [hkind] at hop
      exact absurd hop (by decide)

theorem reads_method :
    Reads nestingLimit method (MethodOf (Statement nestingLimit)) Method.Is [] := by
  intro s ts b rest hs hrest h _
  cases h with
  | @intro us vs ws xs f ps type bs t hf hps htype hbs ht =>
    simp only [List.append_assoc, List.cons_append, List.nil_append] at hrest
    obtain ⟨y, s₁, hname, hs₁, hrest₁, rfl⟩ :=
      reads_expectName "a method name" [] s us f _ hs hrest hf (stops_nil _)
    have hparameter : Reads nestingLimit parameter ParameterRule Eq [":"] := reads_parameter
    have hlist := reads_commaSeparated hparameter avoids_parameter (by decide) (by decide) []
    obtain ⟨-, hopen, ps', s₂, hps', hs₂, hrest₂, hR₂⟩ := hlist.led hs₁ hrest₁ hps (stops_nil _)
    cases hbs with
    | @intro d xs _ hd hbs =>
      obtain ⟨type', s₃, htype', hs₃, hrest₃, hR₃⟩ :=
        reads_optionalAfter (reads_expectName "a return type" []) ":" s₂ ws type _ hs₂ hrest₂ htype
          (hd.stops (by decide))
      obtain ⟨hdo, hrest₄⟩ := reads_expectText hrest₃ hd
      obtain ⟨ss, s₄, hss, hs₄, hrest₅, hR₄⟩ :=
        reads_block (reads_statement nestingLimit) hbs (t := t) (by rw [ht.1]; decide) hs₃.next hrest₄
      obtain ⟨hend, hrest₆⟩ := reads_expectText hrest₅ ht
      have hrun : method s = .ok ⟨⟨s₄.next.nextId, s.stream.previousOffset⟩, y, ps', type', ss⟩
          s₄.next.bump := by
        rw [method, stream_bind, bind_of_ok hname, bind_of_ok (hopen _), bind_of_ok hps',
          bind_of_ok htype', bind_of_ok (hdo _), bind_of_ok hss, bind_of_ok (hend _), freshId_bind]
        rfl
      refine ⟨_, _, hrun, hs₄.next.bump, hrest₆, ?_⟩
      rw [List.forall₂_eq_eq_eq] at hR₂
      simp only [Method.Is, Method.bare, hR₂, eq_of_rel hR₃, hR₄]

theorem reads_manyAfter {room : Nat} {text : String} {p : Parse α} {L : Phrase β}
    {R : α → β → Prop} (hp : Reads room p L R []) {ts rest : List Token} {bs : List β}
    (h : Many (Led text L) ts bs) {bound : List Token} (hs : s.Admits room)
    (hrest : s.rest = ts ++ rest) (hstop : Stops [text] rest) (hbound : s.rest.length ≤ bound.length) :
    ∃ as s', manyAfter text p bound s = .ok as s' ∧ s'.Admits room ∧ s'.rest = rest ∧
      List.Forall₂ R as bs := by
  induction h generalizing s bound with
  | nil =>
    refine ⟨[], s, ?_, hs, hrest, .nil⟩
    cases bound with
    | nil => rfl
    | cons _ bound =>
      have hno : s.stream.peek (.text text) = false :=
        peek_of_stops (by rwa [hrest]) (List.mem_singleton.2 rfl)
      rw [manyAfter, bind_of_ok (optionalAfter_eq_ok.2 (Or.inl ⟨hno, rfl, rfl⟩))]
      rfl
  | @cons ts us b bs hb hbs ih =>
    rw [List.append_assoc] at hrest
    obtain ⟨hpeek, -, a, s₁, ha, hs₁, hrest₁, hR⟩ := hp.led hs hrest hb (stops_nil _)
    cases bound with
    | nil =>
      cases hb
      rw [hrest] at hbound
      simp at hbound
    | cons _ bound =>
      have hlen : s₁.rest.length ≤ bound.length := by
        cases hb
        rw [hrest] at hbound
        rw [hrest₁]
        simp only [List.length_cons, List.length_append] at hbound ⊢
        omega
      obtain ⟨as, s₂, has, hs₂, hrest₂, hRs⟩ := ih hs₁ hrest₁ hlen
      refine ⟨a :: as, s₂, ?_, hs₂, hrest₂, .cons hR hRs⟩
      rw [manyAfter, bind_of_ok (optionalAfter_eq_ok.2 (Or.inr ⟨hpeek, a, rfl, ha⟩))]
      exact bind_of_ok has

/-- **Whatever is derived is accepted.** -/
theorem reads_source {b : Source} (hs : s.Admits nestingLimit)
    (h : SourceRule nestingLimit s.rest b) :
    ∃ p s', source s = .ok p s' ∧ p.bare = b := by
  generalize hrest : s.rest = ts at h
  cases h with
  | @intro us vs fs ms hfs hms =>
    have hstop : Stops ["LET"] vs := by
      cases hms with
      | nil => exact fun _ _ h => by cases h
      | cons hm _ =>
        cases hm with
        | intro ht _ => exact ht.stops (by decide)
    obtain ⟨fs', s₁, hfs', hs₁, hrest₁, hR₁⟩ :=
      reads_manyAfter reads_field hfs hs hrest hstop (Nat.le_refl _)
    have hrest₁' : s₁.rest = vs ++ [] := by rw [hrest₁, List.append_nil]
    obtain ⟨ms', s₂, hms', -, hrest₂, hR₂⟩ := reads_manyAfter reads_method hms hs₁ hrest₁'
      (fun _ _ h => by cases h) (Nat.le_refl _)
    have hnext : s₂.stream.next? = none := List.head?_eq_none_iff.2 hrest₂
    change manyAfter "LET" field s.stream.rest s = _ at hfs'
    change manyAfter "DEF" method s₁.stream.rest s₁ = _ at hms'
    have hrun : source s = .ok ⟨fs', ms'⟩ s₂ := by
      rw [source, stream_bind, bind_of_ok hfs', stream_bind, bind_of_ok hms', stream_bind, hnext]
      rfl
    refine ⟨_, _, hrun, ?_⟩
    rw [Source.bare, map_eq_of_forall₂ hR₁, map_eq_of_forall₂ hR₂]

end Parse

/-! ## The grammar and the parser -/

theorem lexed_ofTokens {text : String} {tokens : List Token} (h : lex text = .ok tokens) :
    (ParserState.ofTokens tokens).Lexed :=
  lexed_of_lex h

/-- A fresh parser admits all levels. -/
theorem admits_ofTokens {text : String} {tokens : List Token} (h : lex text = .ok tokens) :
    (ParserState.ofTokens tokens).Admits nestingLimit :=
  ⟨lexed_ofTokens h, Nat.le_of_eq (Nat.zero_add _)⟩

/-- The tokens of a text derive at most one tree. -/
theorem Grammar.SourceRule.unique {text : String} {tokens : List Token} {b b' : Source}
    (h : lex text = .ok tokens) (hb : SourceRule nestingLimit tokens b)
    (hb' : SourceRule nestingLimit tokens b') : b = b' := by
  obtain ⟨s, s₁, hs, rfl⟩ := Parse.reads_source (admits_ofTokens h) hb
  obtain ⟨s', s₁', hs', rfl⟩ := Parse.reads_source (admits_ofTokens h) hb'
  rw [hs] at hs'
  cases hs'
  rfl

/-- **The parser accepts its grammar**: the tokens of a text are accepted with a tree, up
    to identities and offsets, exactly if they derive it within the limits of nesting. -/
theorem parse_iff_derives {text : String} {tokens : List Token} (h : lex text = .ok tokens)
    (b : Source) :
    (∃ s, parse tokens = .ok s ∧ s.bare = b) ↔ SourceRule nestingLimit tokens b := by
  constructor
  · rintro ⟨s, hs, rfl⟩
    obtain ⟨s', hs'⟩ := Parse.onTokens_eq_ok.1 hs
    exact Parse.yields_source (lexed_ofTokens h) hs'
  · intro hb
    obtain ⟨s, s', hs, rfl⟩ := Parse.reads_source (admits_ofTokens h) hb
    exact ⟨s, Parse.onTokens_eq_ok.2 ⟨s', hs⟩, rfl⟩

/-- A program that is a single global variable. -/
def fieldText : String := "LET x: Integer = 1 + y;"

def fieldTokens : List Token :=
  [⟨.identifier, "LET", 0⟩, ⟨.identifier, "x", 4⟩, ⟨.operator, ":", 5⟩,
    ⟨.identifier, "Integer", 7⟩, ⟨.operator, "=", 15⟩, ⟨.integer, "1", 17⟩, ⟨.operator, "+", 19⟩,
    ⟨.identifier, "y", 21⟩, ⟨.operator, ";", 22⟩]

def fieldTree : Source :=
  ⟨[⟨.blank, "x", "Integer",
    some (.binary .blank .add (.literal .blank (.integer 1)) (.var .blank "y"))⟩], []⟩

theorem lex_fieldText : lex fieldText = .ok fieldTokens := eq_ok_of_toOption (by decide +kernel)

theorem sourceRule_fieldTree : SourceRule nestingLimit fieldTokens fieldTree := by
  have hone : Multiplicative (Expression 127) [⟨.integer, "1", 17⟩]
      (.literal .blank (.integer 1)) :=
    .operand (.primary (.literal rfl rfl))
  have hy : Led BinaryOperator.add.text (Multiplicative (Expression 127))
      [⟨.operator, "+", 19⟩, ⟨.identifier, "y", 21⟩] (.var .blank "y") :=
    .intro ⟨rfl, by decide⟩ (.operand (.primary (.var ⟨rfl, by decide⟩)))
  have hsum : Additive (Expression 127)
      [⟨.integer, "1", 17⟩, ⟨.operator, "+", 19⟩, ⟨.identifier, "y", 21⟩]
      (.binary .blank .add (.literal .blank (.integer 1)) (.var .blank "y")) :=
    Chain.join (.operand hone) (by decide) hy
  have hvalue : Led "=" (Expression nestingLimit)
      [⟨.operator, "=", 15⟩, ⟨.integer, "1", 17⟩, ⟨.operator, "+", 19⟩, ⟨.identifier, "y", 21⟩]
      (.binary .blank .add (.literal .blank (.integer 1)) (.var .blank "y")) :=
    .intro ⟨rfl, by decide⟩ ⟨.operand (.operand hsum), by decide⟩
  have hname : Identifier [⟨.identifier, "x", 4⟩] "x" := Identifier.intro rfl
  have htype : Led ":" Identifier [⟨.operator, ":", 5⟩, ⟨.identifier, "Integer", 7⟩] "Integer" :=
    .intro ⟨rfl, by decide⟩ (Identifier.intro rfl)
  have hend : Token.Is ⟨.operator, ";", 22⟩ ";" := ⟨rfl, by decide⟩
  have hfield : Led "LET" (FieldOf (Expression nestingLimit)) fieldTokens
      ⟨.blank, "x", "Integer",
        some (.binary .blank .add (.literal .blank (.integer 1)) (.var .blank "y"))⟩ :=
    .intro ⟨rfl, by decide⟩ (FieldOf.intro hname htype (.some hvalue) hend)
  exact SourceOf.intro (.cons hfield .nil) .nil

/-- What is derived there is accepted. -/
theorem parse_iff_derives_field : lex fieldText = .ok fieldTokens ∧
    SourceRule nestingLimit fieldTokens fieldTree ∧
    ∃ s, parse fieldTokens = .ok s ∧ s.bare = fieldTree :=
  ⟨lex_fieldText, sourceRule_fieldTree,
    (parse_iff_derives lex_fieldText fieldTree).2 sourceRule_fieldTree⟩

end TinyScript
