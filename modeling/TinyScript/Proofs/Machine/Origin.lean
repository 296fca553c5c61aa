import TinyScript.Proofs.Machine.Activity

/-
  Where errors come from.

  An activity without a result raises the error itself or has started one that stops in
  the same way (`Activity.Stops.explained`).  Activities do not start others for ever, so
  every failure goes back to one that raises the error (`Activity.Stops.origin`).
-/

namespace TinyScript

section
variable {r : Registry} {F : Nat} {m m' : Machine} {e : Stop}

open Eval

/-- The activity starts one that stops in the same way, or does so by itself. -/
def Activity.Explains (r : Registry) (c : Activity) (e : Stop) : Prop :=
  (∃ c', Starts r c c' ∧ c'.Stops r e) ∨ Raises r c e

theorem Starts.explains {c c' : Activity} (h : Starts r c c')
    (hf : c'.task.run r c'.fuel c'.machine = .error e m') : c.Explains r e :=
  Or.inl ⟨c', h, m', hf⟩

theorem explains_binary {n : Node} {o : BinaryOperator} {left right : Expr}
    (h : expr r (invoke r F) (.binary n o left right) m = .error e m') :
    Activity.Explains r ⟨F, .expr (.binary n o left right), m⟩ e := by
  by_cases ho : o = .and ∨ o = .or
  · rw [expr_logical ho, bind_eq_error] at h
    rcases h with h | ⟨b, m₁, hb, h⟩
    · exact (Starts.logicalLeft ho).explains (discard_eq_error.2 h)
    · split at h
      · rename_i heq
        subst heq
        simp only [bind_eq_error, pure_apply, reduceCtorEq, exists_false, and_false,
          or_false] at h
        exact (Starts.logicalRight ho (boolean_eq_ok.1 hb)).explains (discard_eq_error.2 h)
      · simp at h
  · simp only [expr_operator ho, bind_eq_error, get_bind, lift_eq_error] at h
    rcases h with h | ⟨u, m₁, hu, h | ⟨v, m₂, hv, hc, rfl⟩⟩
    · exact (Starts.left ho).explains (discard_eq_error.2 h)
    · exact (Starts.right ho hu).explains (discard_eq_error.2 h)
    · exact Or.inr (.operator ho hu hv hc)

theorem explains_call {n : Node} {f : String} {es : List Expr}
    (h : expr r (invoke r F) (.call n f es) m = .error e m') :
    Activity.Explains r ⟨F, .expr (.call n f es), m⟩ e := by
  simp only [expr, bind_eq_error, call, get_bind] at h
  rcases h with h | ⟨vs, m₁, hvs, h⟩
  · exact Starts.arguments.explains (discard_eq_error.2 h)
  · cases hf : m₁.scope.findFunction? f vs.length with
    | none =>
      simp only [hf, fail, throw_apply, EStateM.Result.error.injEq] at h
      obtain ⟨rfl, rfl⟩ := h
      exact Or.inr (.function hvs hf)
    | some found =>
      simp only [hf] at h
      exact (Starts.callee hvs hf).explains (discard_eq_error.2 h)

theorem explains_methodCall {n : Node} {o : Expr} {f : String} {es : List Expr}
    (h : expr r (invoke r F) (.methodCall n o f es) m = .error e m') :
    Activity.Explains r ⟨F, .expr (.methodCall n o f es), m⟩ e := by
  simp only [expr, bind_eq_error, method, ofExcept_eq_error, ofExcept_eq_ok, asObject_eq_ok] at h
  rcases h with h | ⟨v, m₁, hv, h | ⟨vs, m₂, hvs, h | ⟨ref, m₃, ⟨rfl, rfl⟩, h⟩⟩⟩
  · exact Starts.methodOwner.explains (discard_eq_error.2 h)
  · exact (Starts.methodArguments hv).explains (discard_eq_error.2 h)
  · obtain ⟨c, hc, heq, rfl⟩ := h
    cases heq
    exact Or.inr (.methodOwner hv hvs hc)
  · cases hg : (r.describe ref.type).method? f vs.length with
    | none =>
      simp only [Registry.callMethod, hg, native_eq_error, throw_apply,
        EStateM.Result.error.injEq] at h
      obtain ⟨w, ⟨rfl, rfl⟩, rfl⟩ := h
      exact Or.inr (.method hv hvs hg)
    | some g =>
      simp only [Registry.callMethod, hg] at h
      exact (Starts.methodBody hv hvs hg).explains (discard_eq_error.2 h)

theorem explains_expr {x : Expr} (h : expr r (invoke r F) x m = .error e m') :
    Activity.Explains r ⟨F, .expr x, m⟩ e := by
  cases x with
  | literal n v => simp [expr] at h
  | group n inner =>
    simp only [expr] at h
    exact Starts.inner.explains (discard_eq_error.2 h)
  | binary n o left right => exact explains_binary h
  | var n x =>
    simp only [expr, bind_eq_error, cell_eq_error, load_apply, reduceCtorEq, exists_false,
      and_false, or_false] at h
    obtain ⟨hx, heq, rfl⟩ := h
    cases heq
    exact Or.inr (.lookup hx)
  | field n o x =>
    simp only [expr, bind_eq_error, field, get_bind, ofExcept_eq_error, ofExcept_eq_ok,
      asObject_eq_ok] at h
    rcases h with h | ⟨v, m₁, hv, ⟨c, hc, heq, rfl⟩ | ⟨ref, _, ⟨rfl, rfl⟩, c, hc, heq, rfl⟩⟩
    · exact Starts.fieldOwner.explains (discard_eq_error.2 h)
    · cases heq
      exact Or.inr (.fieldOwner hv hc)
    · cases heq
      exact Or.inr (.field hv hc)
  | call n f es => exact explains_call h
  | methodCall n o f es => exact explains_methodCall h

theorem explains_exprs {es : List Expr}
    (h : exprs r (invoke r F) es m = .error e m') :
    Activity.Explains r ⟨F, .exprs es, m⟩ e := by
  cases es with
  | nil => simp [exprs] at h
  | cons x es =>
    simp only [exprs, bind_eq_error, pure_apply, reduceCtorEq, exists_false, and_false,
      or_false] at h
    rcases h with h | ⟨v, m₁, hv, h⟩
    · exact Starts.argument.explains (discard_eq_error.2 h)
    · exact (Starts.otherArguments hv).explains (discard_eq_error.2 h)

theorem explains_condition {x : Expr}
    (h : boolean (expr r (invoke r F) x) m = .error e m') :
    Activity.Explains r ⟨F, .condition x, m⟩ e := by
  rcases boolean_eq_error.1 h with h | ⟨v, c, hv, hc, heq⟩
  · exact Starts.condition.explains (discard_eq_error.2 h)
  · cases heq
    exact Or.inr (.condition hv hc)

/-! ## Calls -/

theorem defineParameters_ne_error {ps : List Parameter} {vs : List Value} {s : Stop} :
    defineParameters ps vs m ≠ .error s m' := by
  induction ps generalizing vs m with
  | nil => simp [defineParameters]
  | cons p ps ih =>
    cases vs with
    | nil => simp [defineParameters]
    | cons v vs =>
      simp only [defineParameters, ne_eq, bind_eq_error, define_apply, reduceCtorEq, false_or,
        EStateM.Result.ok.injEq]
      rintro ⟨_, _, -, h⟩
      exact ih h

theorem explains_invoke {callable : Callable} {S : RunScope} {vs : List Value}
    (h : invoke r F callable S vs m = .error e m') :
    Activity.Explains r ⟨F, .call callable S vs, m⟩ e := by
  rw [invoke.eq_def] at h
  simp only [bind_eq_error, ofExcept_eq_error, ofExcept_eq_ok, checkArity_eq_error,
    checkArity_eq_ok] at h
  rcases h with ⟨c, ⟨hl, rfl⟩, heq, rfl⟩ | ⟨_, _, ⟨hl, rfl⟩, h⟩
  · cases heq
    exact Or.inr (.arity hl)
  · cases callable with
    | native g => exact (Starts.nativeBody hl).explains (discard_eq_error.2 h)
    | declared d =>
      simp only [get_bind] at h
      split at h
      · rename_i hd
        simp only [fail, throw_apply, EStateM.Result.error.injEq] at h
        obtain ⟨rfl, rfl⟩ := h
        exact Or.inr (.depth hd)
      · rename_i hd
        cases F with
        | zero =>
          simp only [throw_apply, EStateM.Result.error.injEq] at h
          obtain ⟨rfl, rfl⟩ := h
          exact Or.inr (.calls hl hd)
        | succ F =>
          simp only [bind_eq_error, deeper_eq_error, inScope_eq_error, pure_apply, reduceCtorEq,
            exists_false, and_false, or_false] at h
          obtain ⟨_, ⟨m₂, hp | ⟨_, m₁, hp, hb⟩, -⟩, -⟩ := h
          · exact absurd hp defineParameters_ne_error
          · exact (Starts.body hl hd hp).explains (discard_eq_error.2 hb)

/-! ## Statements -/

theorem explains_assign {receiver value : Expr}
    (h : assign r (invoke r F) receiver value m = .error e m') :
    Activity.Explains r ⟨F, .stmt (.assign receiver value), m⟩ e := by
  cases receiver with
  | var n x =>
    simp only [assign, bind_eq_error, cell_eq_error, cell_eq_ok, store_apply, reduceCtorEq,
      exists_false, and_false, or_false] at h
    rcases h with ⟨hx, heq, rfl⟩ | ⟨c, _, ⟨hx, rfl⟩, h⟩
    · cases heq
      exact Or.inr (.assigned hx)
    · exact (Starts.assigned hx).explains (discard_eq_error.2 h)
  | field n o x =>
    simp only [assign, bind_eq_error, ofExcept_eq_error, ofExcept_eq_ok, asObject_eq_ok,
      native_eq_error] at h
    rcases h with h | ⟨u, m₁, hu, h | ⟨v, m₂, hv, h | ⟨ref, _, ⟨rfl, rfl⟩, h⟩⟩⟩
    · exact Starts.assignedOwner.explains (discard_eq_error.2 h)
    · exact (Starts.assignedField hu).explains (discard_eq_error.2 h)
    · obtain ⟨c, hc, heq, rfl⟩ := h
      cases heq
      exact Or.inr (.assignedOwner hu hv hc)
    · obtain ⟨w, hw, rfl⟩ := h
      obtain ⟨c, hc, rfl, rfl⟩ := Native.setField_eq_error.1 hw
      exact Or.inr (.assignedField hu hv hc)
  | _ =>
    simp only [assign, fail, throw_apply, EStateM.Result.error.injEq] at h
    obtain ⟨rfl, rfl⟩ := h
    exact Or.inr (.assignedReceiver rfl)

theorem explains_stmt {s : Stmt} (h : stmt r (invoke r F) F s m = .error e m') :
    Activity.Explains r ⟨F, .stmt s, m⟩ e := by
  cases s with
  | expression x =>
    simp only [stmt, bind_eq_error, pure_apply, reduceCtorEq, exists_false, and_false,
      or_false] at h
    exact Starts.expression.explains h
  | declare d =>
    simp only [stmt, bind_eq_error, define_apply, pure_apply, reduceCtorEq, exists_false, and_false,
      or_false] at h
    cases hd : d.value with
    | none => simp [hd, optionalExpr] at h
    | some x =>
      simp only [hd, optionalExpr] at h
      exact (Starts.initialValue hd).explains (discard_eq_error.2 h)
  | assign receiver value =>
    simp only [stmt, bind_eq_error, pure_apply, reduceCtorEq, exists_false, and_false,
      or_false] at h
    exact explains_assign h
  | branch c ss ss' =>
    simp only [stmt, bind_eq_error, boolean_eq_ok] at h
    rcases h with h | ⟨b, m₁, hb, h⟩
    · exact Starts.choice.explains (discard_eq_error.2 h)
    · have hbody : inChild (stmts r (invoke r F) F (if b then ss else ss')) m₁ =
          .error e m' := by
        cases b <;> exact h
      obtain ⟨m₂, hbody, -⟩ := inChild_eq_error.1 hbody
      exact (Starts.chosen hb).explains (discard_eq_error.2 hbody)
  | forEach x value ss =>
    simp only [stmt, bind_eq_error, ofExcept_eq_error, ofExcept_eq_ok, asRange_eq_ok] at h
    rcases h with h | ⟨v, m₁, hv, ⟨c, hc, heq, rfl⟩ | ⟨g, _, ⟨rfl, rfl⟩, h⟩⟩
    · exact Starts.iterable.explains (discard_eq_error.2 h)
    · cases heq
      exact Or.inr (.iterable hv hc)
    · exact (Starts.rounds hv).explains (discard_eq_error.2 h)
  | loop c ss =>
    simp only [stmt] at h
    exact Starts.loop.explains (discard_eq_error.2 h)
  | ret offset value =>
    simp only [stmt, bind_eq_error, pure_apply, reduceCtorEq, exists_false, and_false,
      or_false] at h
    exact Starts.returned.explains (discard_eq_error.2 h)

theorem explains_stmts {ss : List Stmt}
    (h : stmts r (invoke r F) F ss m = .error e m') :
    Activity.Explains r ⟨F, .stmts ss, m⟩ e := by
  cases ss with
  | nil => simp [stmts] at h
  | cons s ss =>
    simp only [stmts, bind_eq_error] at h
    rcases h with h | ⟨completion, m₁, hs, h⟩
    · exact Starts.statement.explains (discard_eq_error.2 h)
    · cases completion with
      | normal => exact (Starts.otherStatements hs).explains (discard_eq_error.2 h)
      | returned v => simp at h

/-! ## Loops -/

theorem explains_rounds {x : String} {ss : List Stmt} {n : Nat} {i : Int}
    (h : (Task.rounds x ss n i).run r F m = .error e m') :
    Activity.Explains r ⟨F, .rounds x ss n i, m⟩ e := by
  simp only [Task.run, discard_eq_error] at h
  cases n with
  | zero => simp [forEach] at h
  | succ n =>
    simp only [forEach, bind_eq_error, inChild_eq_error, inChild_eq_ok, bind_eq_ok, define_apply,
      reduceCtorEq, false_or, EStateM.Result.ok.injEq] at h
    rcases h with ⟨m₁, ⟨_, _, ⟨-, rfl⟩, h⟩, -⟩ | ⟨completion, _, ⟨m₁, ⟨_, _, ⟨-, rfl⟩, hb⟩, rfl⟩, h⟩
    · exact Starts.round.explains (discard_eq_error.2 h)
    · cases completion with
      | normal => exact (Starts.otherRounds hb).explains (discard_eq_error.2 h)
      | returned v => simp at h

theorem explains_loop {c : Expr} {ss : List Stmt} {n : Nat}
    (h : (Task.loop c ss n).run r F m = .error e m') :
    Activity.Explains r ⟨F, .loop c ss n, m⟩ e := by
  simp only [Task.run, discard_eq_error] at h
  cases n with
  | zero =>
    simp only [loop, throw_apply, EStateM.Result.error.injEq] at h
    obtain ⟨rfl, rfl⟩ := h
    exact Or.inr .rounds
  | succ n =>
    simp only [loop, bind_eq_error, boolean_eq_ok] at h
    rcases h with h | ⟨b, m₁, hb, h⟩
    · exact Starts.loopCondition.explains (discard_eq_error.2 h)
    · cases b with
      | false => simp at h
      | true =>
        simp only [↓reduceIte, bind_eq_error, inChild_eq_error, inChild_eq_ok] at h
        rcases h with ⟨m₂, h, -⟩ | ⟨completion, _, ⟨m₂, hs, rfl⟩, h⟩
        · exact (Starts.loopBody hb).explains (discard_eq_error.2 h)
        · cases completion with
          | normal => exact (Starts.loopAgain hb hs).explains (discard_eq_error.2 h)
          | returned v => simp at h

/-! ## Programs -/

theorem explains_fields {fs : List Field}
    (h : defineFields r F fs m = .error e m') :
    Activity.Explains r ⟨F, .fields fs, m⟩ e := by
  cases fs with
  | nil => simp [defineFields] at h
  | cons f fs =>
    simp only [defineFields, bind_eq_error, define_apply, reduceCtorEq, EStateM.Result.ok.injEq,
      false_or] at h
    rcases h with h | ⟨v, m₁, hv, _, _, ⟨-, rfl⟩, h⟩
    · cases hf : f.value with
      | none => simp [hf, optionalExpr] at h
      | some x =>
        simp only [hf, optionalExpr] at h
        exact (Starts.fieldValue hf).explains (discard_eq_error.2 h)
    · exact (Starts.otherFields hv).explains h

theorem defineMethods_ne_error {ds : List Method} {s : Stop} :
    ds.forM defineMethod m ≠ .error s m' := by
  induction ds generalizing m with
  | nil => simp [List.forM]
  | cons d ds ih =>
    simp only [List.forM, ne_eq, bind_eq_error, defineMethod_apply, reduceCtorEq, false_or,
      EStateM.Result.ok.injEq]
    rintro ⟨_, _, -, h⟩
    exact ih h

theorem explains_source {s : Source} (h : source r F s m = .error e m') :
    Activity.Explains r ⟨F, .source s, m⟩ e := by
  simp only [source, inChild_eq_error, bind_eq_error, call, get_bind] at h
  obtain ⟨m₁, h | ⟨⟨⟩, m₂, hf, h | ⟨⟨⟩, m₃, hd, h⟩⟩, -⟩ := h
  · exact Starts.sourceFields.explains h
  · exact absurd h defineMethods_ne_error
  · cases hm : m₃.scope.findFunction? "main" 0 with
    | none =>
      simp only [List.length_nil, hm, fail, throw_apply, EStateM.Result.error.injEq] at h
      obtain ⟨rfl, rfl⟩ := h
      exact Or.inr (.main hf hd hm)
    | some found =>
      simp only [List.length_nil, hm] at h
      exact (Starts.main hf hd hm).explains (discard_eq_error.2 h)

/-- An activity without a result stops by itself or has started one that does. -/
theorem Activity.Stops.explained {c : Activity} (h : c.Stops r e) : c.Explains r e := by
  obtain ⟨F, task, m⟩ := c
  obtain ⟨m', h⟩ := h
  cases task with
  | expr x => exact explains_expr (discard_eq_error.1 h)
  | condition x => exact explains_condition (discard_eq_error.1 h)
  | exprs es => exact explains_exprs (discard_eq_error.1 h)
  | call callable S vs => exact explains_invoke (discard_eq_error.1 h)
  | native body =>
    obtain ⟨w, hw, -⟩ := native_eq_error.1 (discard_eq_error.1 h)
    exact Or.inr (.native hw)
  | define x v => simp [Task.run] at h
  | parameters ps vs => exact absurd h defineParameters_ne_error
  | stmt s => exact explains_stmt (discard_eq_error.1 h)
  | stmts ss => exact explains_stmts (discard_eq_error.1 h)
  | rounds x ss n i => exact explains_rounds h
  | loop c ss n => exact explains_loop h
  | fields fs => exact explains_fields h
  | method d => simp [Task.run] at h
  | methods ds => exact absurd h defineMethods_ne_error
  | source s => exact explains_source (discard_eq_error.1 h)

/-- **Every failure goes back to an activity that raises the error**, and what never ends goes
    back to one that does not end by itself. -/
theorem Activity.Stops.origin {c : Activity} (h : c.Stops r e) :
    ∃ c', During r c c' ∧ Raises r c' e := by
  induction c using (wellFounded_starts r).induction with
  | h c ih =>
    rcases h.explained with ⟨c₁, hs, hf⟩ | hr
    · obtain ⟨c', hd, hr⟩ := ih c₁ hs hf
      exact ⟨c', .head hs hd, hr⟩
    · exact ⟨c, .refl, hr⟩

end

end TinyScript
