import TinyScript.Machine.Exec
import TinyScript.Proofs.Outcome

/-
  Outcomes of the elementary steps of the machine.

  For every step there is one equation for its success and one for its failure,
  so that larger computations are taken apart without unfolding.
-/

namespace TinyScript

namespace Native

variable {ref : ObjectRef} {x : String} {v : Value} {w w' : World}

theorem setField_eq_ok {u : Unit} :
    setField ref x v w = .ok u w' ↔ w.setField ref x v = .ok w' := by
  simp only [setField, get_bind]
  cases w.setField ref x v with
  | ok w₁ => simp [ofExcept]
  | error c => simp [ofExcept, bind_eq_ok]

theorem setField_eq_error {e : Stop} :
    setField ref x v w = .error e w' ↔
      ∃ c, w.setField ref x v = .error c ∧ e = .error c ∧ w' = w := by
  simp only [setField, get_bind]
  cases w.setField ref x v with
  | ok w₁ => simp [ofExcept]
  | error c => simp [ofExcept, bind_eq_error, eq_comm (b := e), eq_comm (b := w')]

theorem print_apply (v : Value) (w : World) :
    print [v] w =
      match w.text? v with
      | some line => .ok .nil (w.printLine line)
      | none => .error .outOfFuel w := by
  rw [print, get_bind]
  cases w.text? v <;> rfl

/-- Printing succeeds if the text has an end, -/
theorem print_eq_ok {u : Value} :
    print [v] w = .ok u w' ↔ ∃ line, w.text? v = some line ∧ u = .nil ∧ w' = w.printLine line := by
  rw [print_apply]
  cases w.text? v <;> simp [eq_comm]

/-- and there is no other way in which it can fail. -/
theorem print_eq_error {e : Stop} :
    print [v] w = .error e w' ↔ w.text? v = none ∧ e = .outOfFuel ∧ w' = w := by
  rw [print_apply]
  cases w.text? v <;> simp [eq_comm]

end Native

namespace Eval

variable {α : Type} {step : Eval α} {m m' : Machine} {a : α} {e : Stop}

/-! ## Scopes and calls -/

theorem inScope_eq_ok {S : RunScope} : inScope S step m = .ok a m' ↔
    ∃ m₁, step { m with scope := S } = .ok a m₁ ∧ m' = { m₁ with scope := m.scope } := by
  rw [inScope]
  cases step { m with scope := S } with
  | ok b m₁ => simp [eq_comm, and_assoc]
  | error c m₁ => simp

theorem inScope_eq_error {S : RunScope} : inScope S step m = .error e m' ↔
    ∃ m₁, step { m with scope := S } = .error e m₁ ∧ m' = { m₁ with scope := m.scope } := by
  rw [inScope]
  cases step { m with scope := S } with
  | ok b m₁ => simp
  | error c m₁ => simp [eq_comm, and_assoc]

theorem inChild_eq_ok : inChild step m = .ok a m' ↔
    ∃ m₁, step { m with scope := m.scope.child } = .ok a m₁ ∧
      m' = { m₁ with scope := m.scope } := by
  rw [inChild, get_bind]
  exact inScope_eq_ok

theorem inChild_eq_error : inChild step m = .error e m' ↔
    ∃ m₁, step { m with scope := m.scope.child } = .error e m₁ ∧
      m' = { m₁ with scope := m.scope } := by
  rw [inChild, get_bind]
  exact inScope_eq_error

theorem deeper_eq_ok : deeper step m = .ok a m' ↔
    ∃ m₁, step { m with depth := m.depth + 1 } = .ok a m₁ ∧
      m' = { m₁ with depth := m₁.depth - 1 } := by
  rw [deeper]
  cases step { m with depth := m.depth + 1 } with
  | ok b m₁ => simp [eq_comm, and_assoc]
  | error c m₁ => simp

theorem deeper_eq_error : deeper step m = .error e m' ↔
    ∃ m₁, step { m with depth := m.depth + 1 } = .error e m₁ ∧
      m' = { m₁ with depth := m₁.depth - 1 } := by
  rw [deeper]
  cases step { m with depth := m.depth + 1 } with
  | ok b m₁ => simp
  | error c m₁ => simp [eq_comm, and_assoc]

/-! ## The host and the world -/

theorem ofExcept_eq_ok {x : Except RuntimeError α} :
    ofExcept x m = .ok a m' ↔ x = .ok a ∧ m' = m := by
  cases x with
  | ok b => simp [ofExcept, eq_comm]
  | error c => simp [ofExcept, fail]

theorem ofExcept_eq_error {x : Except RuntimeError α} :
    ofExcept x m = .error e m' ↔ ∃ c, x = .error c ∧ e = .error c ∧ m' = m := by
  cases x with
  | ok b => simp [ofExcept]
  | error c => simp [ofExcept, fail, eq_comm]

theorem native_eq_ok {n : Native α} : native n m = .ok a m' ↔
    ∃ w, n m.world = .ok a w ∧ m' = { m with world := w } := by
  rw [native]
  cases n m.world with
  | ok b w => simp [eq_comm, and_assoc]
  | error c w => simp

theorem native_eq_error {n : Native α} : native n m = .error e m' ↔
    ∃ w, n m.world = .error e w ∧ m' = { m with world := w } := by
  rw [native]
  cases n m.world with
  | ok b w => simp
  | error c w => simp [eq_comm, and_assoc]

/-! ## Variables -/

theorem cell_eq_ok {x : String} {c : Nat} :
    cell x m = .ok c m' ↔ m.cell? x = some c ∧ m' = m := by
  rw [cell, get_bind]
  cases m.cell? x with
  | none => simp [fail]
  | some c' => simp [eq_comm]

theorem cell_eq_error {x : String} :
    cell x m = .error e m' ↔ m.cell? x = none ∧ e = .error (.unknownVariable x) ∧ m' = m := by
  rw [cell, get_bind]
  cases m.cell? x with
  | none => simp [fail, eq_comm]
  | some c' => simp

@[simp] theorem load_apply (c : Nat) (m : Machine) :
    load c m = .ok ((m.cells[c]?).getD .nil) m := rfl

@[simp] theorem store_apply (c : Nat) (v : Value) (m : Machine) :
    store c v m = .ok () { m with cells := m.cells.setIfInBounds c v } := rfl

@[simp] theorem define_apply (x : String) (v : Value) (m : Machine) :
    define x v m = .ok () (m.define x v) := rfl

@[simp] theorem defineMethod_apply (d : Method) (m : Machine) :
    defineMethod d m =
      .ok () { m with scope := m.scope.defineFunction d.name d.arity (.declared d) } := rfl

/-! ## Values of a kind -/

theorem asBoolean_eq_ok {v : Value} {b : Bool} : v.asBoolean = .ok b ↔ v = .boolean b := by
  cases v <;> simp [Value.asBoolean]

theorem asRange_eq_ok {v : Value} {g : Range} : v.asRange = .ok g ↔ v = .range g := by
  cases v <;> simp [Value.asRange]

theorem asObject_eq_ok {v : Value} {o : ObjectRef} : v.asObject = .ok o ↔ v = .object o := by
  cases v <;> simp [Value.asObject]

theorem boolean_eq_ok {step : Eval Value} {b : Bool} :
    boolean step m = .ok b m' ↔ step m = .ok (.boolean b) m' := by
  simp only [boolean, bind_eq_ok, ofExcept_eq_ok, asBoolean_eq_ok]
  constructor
  · rintro ⟨v, m₁, h, rfl, rfl⟩
    exact h
  · exact fun h => ⟨_, _, h, rfl, rfl⟩

theorem boolean_eq_error {step : Eval Value} : boolean step m = .error e m' ↔
    step m = .error e m' ∨ ∃ v c, step m = .ok v m' ∧ v.asBoolean = .error c ∧ e = .error c := by
  simp only [boolean, bind_eq_error, ofExcept_eq_error]
  refine or_congr_right ⟨?_, ?_⟩
  · rintro ⟨v, m₁, h, c, hc, rfl, rfl⟩
    exact ⟨v, c, h, hc, rfl⟩
  · rintro ⟨v, c, h, hc, rfl⟩
    exact ⟨v, m', h, c, hc, rfl, rfl⟩

/-! ## Errors of operations on values -/

section
variable {v : Value} {c : RuntimeError} {w : World} {ref : ObjectRef} {x : String}

theorem asBoolean_error (h : v.asBoolean = .error c) : c = .expectedBoolean v.kindName := by
  cases v <;> cases h <;> rfl

theorem asRange_error (h : v.asRange = .error c) : c = .expectedIterable v.kindName := by
  cases v <;> cases h <;> rfl

theorem asObject_error (h : v.asObject = .error c) : c = .notAnObject v.kindName := by
  cases v <;> cases h <;> rfl

theorem field_error (h : w.field ref x = .error c) : c = .unknownField ref.type.name x := by
  rw [World.field] at h
  split at h <;> cases h
  rfl

theorem setField_error (h : w.setField ref x v = .error c) :
    c = .unknownField ref.type.name x := by
  rw [World.setField] at h
  split at h <;> cases h
  rfl

theorem onIntegers_error {o : BinaryOperator} {i j : Int} (h : o.onIntegers i j = .error c) :
    c = .divisionByZero ∨ c = invalidOperands o (.integer i) (.integer j) := by
  unfold BinaryOperator.onIntegers at h
  split at h
  · cases h
  · cases h
  · cases h
  · split at h <;> cases h
    exact Or.inl rfl
  · cases h
    exact Or.inr rfl

theorem onDecimals_error {o : BinaryOperator} {i j : Decimal} (h : o.onDecimals i j = .error c) :
    c = .divisionByZero ∨ c = invalidOperands o (.decimal i) (.decimal j) := by
  unfold BinaryOperator.onDecimals at h
  split at h
  · cases h
  · cases h
  · cases h
  · split at h <;> cases h
    exact Or.inl rfl
  · cases h
    exact Or.inr rfl

/-- Why an operator has no value: it divides by zero, it does not apply, or what it asks for
    never ends, which is a text or a comparison. -/
theorem binary_stops {o : BinaryOperator} {u : Value} {e : Stop} (h : w.binary o u v = .error e) :
    (∃ c, e = .error c ∧ (c = .divisionByZero ∨ c = invalidOperands o u v)) ∨
      e = .outOfFuel ∧ ((o = .equal ∨ o = .notEqual) ∧ w.equal? u v = none ∨
        o = .add ∧ ((∃ s, u = .string s) ∧ w.text? v = none ∨
          (∃ s, v = .string s) ∧ w.text? u = none)) := by
  rw [World.binary] at h
  split at h
  · unfold World.comparison at h
    split at h
    · obtain ⟨hnone, rfl⟩ := Stop.map_answer_eq_error.1 h
      exact Or.inr ⟨rfl, Or.inl ⟨Or.inl rfl, hnone⟩⟩
    · obtain ⟨hnone, rfl⟩ := Stop.map_answer_eq_error.1 h
      exact Or.inr ⟨rfl, Or.inl ⟨Or.inr rfl, hnone⟩⟩
    · split at h <;> cases h
      exact Or.inl ⟨_, rfl, Or.inr rfl⟩
  · unfold World.arithmetic at h
    split at h
    · obtain ⟨hnone, rfl⟩ := Stop.map_answer_eq_error.1 h
      exact Or.inr ⟨rfl, Or.inr ⟨rfl, Or.inl ⟨⟨_, rfl⟩, hnone⟩⟩⟩
    · obtain ⟨hnone, rfl⟩ := Stop.map_answer_eq_error.1 h
      exact Or.inr ⟨rfl, Or.inr ⟨rfl, Or.inr ⟨⟨_, rfl⟩, hnone⟩⟩⟩
    · obtain ⟨c, hc, rfl⟩ := Stop.mapError_eq_error.1 h
      exact Or.inl ⟨c, rfl, onIntegers_error hc⟩
    · obtain ⟨c, hc, rfl⟩ := Stop.mapError_eq_error.1 h
      exact Or.inl ⟨c, rfl, onDecimals_error hc⟩
    · cases h
      exact Or.inl ⟨_, rfl, Or.inr rfl⟩

/-- An operator fails on a division by zero or because it does not apply. -/
theorem binary_error {o : BinaryOperator} {u : Value} (h : w.binary o u v = .error (.error c)) :
    c = .divisionByZero ∨ c = invalidOperands o u v := by
  rcases binary_stops h with ⟨_, ⟨⟩, hc⟩ | ⟨⟨⟩, -⟩
  exact hc

end

/-! ## Expressions and calls -/

/-- An operator other than `AND` and `OR` evaluates both operands. -/
theorem expr_operator {r : Registry} {inv : Invoke} {n : Node} {o : BinaryOperator}
    {left right : Expr} (ho : ¬(o = .and ∨ o = .or)) :
    expr r inv (.binary n o left right) = (do
      let a ← expr r inv left
      let b ← expr r inv right
      MonadExcept.ofExcept ((← get).world.binary o a b)) := by
  cases o <;> first | rfl | simp at ho

/-- `AND` and `OR` evaluate their right operand if the left one does not decide. -/
theorem expr_logical {r : Registry} {inv : Invoke} {n : Node} {o : BinaryOperator}
    {left right : Expr} (ho : o = .and ∨ o = .or) :
    expr r inv (.binary n o left right) = (do
      let b ← boolean (expr r inv left)
      if b = decide (o = .and) then return .boolean (← boolean (expr r inv right))
      else return .boolean b) := by
  funext m
  rcases ho with rfl | rfl
  all_goals
    simp only [expr]
    cases hb : boolean (expr r inv left) m with
    | error e m₁ => rw [bind_of_error hb, bind_of_error hb]
    | ok b m₁ =>
      rw [bind_of_ok hb, bind_of_ok hb]
      cases b <;> simp

theorem checkArity_eq_ok {name : String} {vs : List Value} {k : Nat} {u : Unit} :
    checkArity name vs k = .ok u ↔ vs.length = k := by
  rw [checkArity]
  split <;> simp_all

theorem checkArity_eq_error {name : String} {vs : List Value} {k : Nat} {c : RuntimeError} :
    checkArity name vs k = .error c ↔
      vs.length ≠ k ∧ c = .argumentCountMismatch name k vs.length := by
  rw [checkArity]
  split <;> simp_all [eq_comm]

/-- A method that is called has the right number of arguments and runs one level
    inside its closure. -/
theorem invoke_declared_eq_ok {r : Registry} {fuel : Nat} {d : Method} {S : RunScope}
    {vs : List Value} {v : Value} (h : invoke r fuel (.declared d) S vs m = .ok v m') :
    vs.length = d.arity ∧ m.depth ≠ callLimit ∧ ∃ fuel' completion m₁ m₂, fuel = fuel' + 1 ∧
      defineParameters d.parameters vs { m with scope := S.child, depth := m.depth + 1 } =
        .ok () m₁ ∧
      stmts r (invoke r fuel') fuel' d.body m₁ = .ok completion m₂ ∧
      v = result completion ∧ m' = { m₂ with scope := m.scope, depth := m₂.depth - 1 } := by
  rw [invoke.eq_def] at h
  simp only [bind_eq_ok, ofExcept_eq_ok, checkArity_eq_ok, get_bind] at h
  obtain ⟨_, _, ⟨hl, rfl⟩, h⟩ := h
  split at h
  · simp [fail] at h
  · rename_i hd
    cases fuel with
    | zero => simp at h
    | succ fuel' =>
      simp only [bind_eq_ok, deeper_eq_ok, inScope_eq_ok, pure_apply, EStateM.Result.ok.injEq] at h
      obtain ⟨completion, _, ⟨_, ⟨m₂, ⟨⟨⟩, m₁, hp, hb⟩, rfl⟩, rfl⟩, rfl, rfl⟩ := h
      exact ⟨hl, hd, fuel', completion, m₁, m₂, rfl, hp, hb, rfl, rfl⟩

theorem invoke_native_eq_ok {r : Registry} {fuel : Nat} {f : NativeFunction} {S : RunScope}
    {vs : List Value} {v : Value} (h : invoke r fuel (.native f) S vs m = .ok v m') :
    vs.length = f.signature.arity ∧ native (f.body vs) m = .ok v m' := by
  rw [invoke.eq_def] at h
  simp only [bind_eq_ok, ofExcept_eq_ok, checkArity_eq_ok] at h
  obtain ⟨_, _, ⟨hl, rfl⟩, h⟩ := h
  exact ⟨hl, h⟩

end Eval

end TinyScript
