import TinyScript.Proofs.Machine.Step

/-
  Statements that definitely return.

  A list of statements definitely returns if it has, at its own level, a `RETURN` or a
  choice of which both sides definitely return.  Loops do not count: they may have no
  round.

  * `stmts_returned`: such a list never ends without a result.
-/

namespace TinyScript

mutual

/-- The statement is a `RETURN`, or a choice of which both sides definitely return. -/
def Stmt.returns : Stmt → Bool
  | .ret _ _ => true
  | .branch _ thenBody elseBody => Stmt.returnsList thenBody && Stmt.returnsList elseBody
  | _ => false
termination_by structural s => s

/-- The statements definitely return. -/
def Stmt.returnsList : List Stmt → Bool
  | [] => false
  | s :: ss => s.returns || Stmt.returnsList ss
termination_by structural ss => ss

end

namespace Eval

variable {r : Registry} {inv : Invoke} {F : Nat}

mutual

theorem stmt_returned : (s : Stmt) → {m m' : Machine} → {completion : Completion} →
    s.returns = true → stmt r inv F s m = .ok completion m' → ∃ v, completion = .returned v
  | .ret n e, m, m', _, _, h => by
    simp only [stmt, bind_eq_ok, pure_apply, EStateM.Result.ok.injEq] at h
    obtain ⟨v, _, -, rfl, -⟩ := h
    exact ⟨v, rfl⟩
  | .branch c ss ss', m, m', _, hs, h => by
    rw [Stmt.returns, Bool.and_eq_true] at hs
    simp only [stmt, bind_eq_ok] at h
    obtain ⟨b, m₁, -, h⟩ := h
    cases b with
    | true =>
      obtain ⟨m₂, hb, -⟩ := inChild_eq_ok.1 h
      exact stmts_returned ss hs.1 hb
    | false =>
      obtain ⟨m₂, hb, -⟩ := inChild_eq_ok.1 h
      exact stmts_returned ss' hs.2 hb
  | .expression _, _, _, _, hs, _ | .declare _, _, _, _, hs, _ | .assign _ _, _, _, _, hs, _
  | .forEach _ _ _, _, _, _, hs, _ | .loop _ _, _, _, _, hs, _ => by cases hs
termination_by structural s => s

/-- **Statements that definitely return do.** -/
theorem stmts_returned : (ss : List Stmt) → {m m' : Machine} → {completion : Completion} →
    Stmt.returnsList ss = true → stmts r inv F ss m = .ok completion m' →
    ∃ v, completion = .returned v
  | [], _, _, _, hs, _ => by cases hs
  | s :: ss, m, m', _, hs, h => by
    rw [Stmt.returnsList, Bool.or_eq_true] at hs
    simp only [stmts, bind_eq_ok] at h
    obtain ⟨c, m₁, hc, h⟩ := h
    cases c with
    | normal =>
      rcases hs with hs | hs
      · obtain ⟨v, hv⟩ := stmt_returned s hs hc
        cases hv
      · exact stmts_returned ss hs h
    | returned v =>
      simp only [pure_apply, EStateM.Result.ok.injEq] at h
      exact ⟨v, h.1.symm⟩
termination_by structural ss => ss

end

end Eval

end TinyScript
