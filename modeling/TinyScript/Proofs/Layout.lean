import TinyScript.Program
import TinyScript.Proofs.Machine.Likeness
import TinyScript.Proofs.Typing.Unplaced

/-
  Layout does not matter.

  A text may be written again with other blanks between its tokens.  The tokens are the same
  but for their places, so the program is the same but for its offsets, and so is what
  analysis and execution make of it.

  * `Eval.stmts_unplaced`: execution does not look at offsets;
  * `relaid`: a machine whose methods are those of a program in another layout;
  * `value_congr`: programs that differ in offsets run alike;
  * `layout_irrelevant`: two layouts of one text go through all stages alike.
-/

namespace TinyScript

/-! ## Execution without offsets -/

namespace Eval

variable (r : Registry) (inv : Invoke)

mutual

/-- Evaluation does not look at offsets. -/
theorem expr_unplaced : (e : Expr) → expr r inv e.unplaced = expr r inv e
  | .literal _ _ | .var _ _ => rfl
  | .group _ e => expr_unplaced e
  | .binary n o left right => by
    rw [Expr.unplaced]
    by_cases ho : o = .and ∨ o = .or
    · rw [expr_logical ho, expr_logical ho, expr_unplaced left, expr_unplaced right]
    · rw [expr_operator ho, expr_operator ho, expr_unplaced left, expr_unplaced right]
  | .field _ e x => by
    rw [Expr.unplaced, expr, expr, expr_unplaced e]
  | .call _ x es => by
    rw [Expr.unplaced, expr, expr, exprs_unplaced es]
  | .methodCall _ e x es => by
    rw [Expr.unplaced, expr, expr, expr_unplaced e, exprs_unplaced es]
termination_by structural e => e

theorem exprs_unplaced : (es : List Expr) → exprs r inv (Expr.unplacedList es) = exprs r inv es
  | [] => rfl
  | e :: es => by
    rw [Expr.unplacedList, exprs, exprs, expr_unplaced e, exprs_unplaced es]
termination_by structural es => es

end

theorem optionalExpr_unplaced (value : Option Expr) :
    optionalExpr r inv (value.map Expr.unplaced) = optionalExpr r inv value := by
  cases value with
  | none => rfl
  | some e => exact expr_unplaced r inv e

theorem assign_unplaced (receiver value : Expr) :
    assign r inv receiver.unplaced value.unplaced = assign r inv receiver value := by
  cases receiver with
  | var n x => simp only [Expr.unplaced, assign, expr_unplaced]
  | field n e x => simp only [Expr.unplaced, assign, expr_unplaced]
  | _ => rfl

mutual

theorem stmt_unplaced (F : Nat) : (s : Stmt) → stmt r inv F s.unplaced = stmt r inv F s
  | .expression e => by
    rw [Stmt.unplaced, stmt, stmt, expr_unplaced]
  | .declare d => by
    rw [Stmt.unplaced, stmt, stmt, Declaration.unplaced, optionalExpr_unplaced]
  | .assign receiver value => by
    rw [Stmt.unplaced, stmt, stmt, assign_unplaced]
  | .branch c ss ss' => by
    rw [Stmt.unplaced, stmt, stmt, expr_unplaced, stmts_unplaced F ss, stmts_unplaced F ss']
  | .forEach x e ss => by
    rw [Stmt.unplaced, stmt, stmt, expr_unplaced, stmts_unplaced F ss]
  | .loop c ss => by
    rw [Stmt.unplaced, stmt, stmt, expr_unplaced, stmts_unplaced F ss]
  | .ret _ e => by
    rw [Stmt.unplaced, stmt, stmt, expr_unplaced]
termination_by structural s => s

/-- Execution does not look at offsets. -/
theorem stmts_unplaced (F : Nat) : (ss : List Stmt) →
    stmts r inv F (Stmt.unplacedList ss) = stmts r inv F ss
  | [] => rfl
  | s :: ss => by
    rw [Stmt.unplacedList, stmts, stmts, stmt_unplaced F s, stmts_unplaced F ss]
termination_by structural ss => ss

end

theorem defineFields_unplaced (F : Nat) (fs : List Field) :
    defineFields r F (fs.map Field.unplaced) = defineFields r F fs := by
  induction fs with
  | nil => rfl
  | cons f fs ih =>
    rw [List.map_cons, defineFields, defineFields, ih, Field.unplaced, optionalExpr_unplaced]

end Eval

/-! ## Programs that differ in offsets -/

/-- A machine whose methods differ from those of another one in offsets at most. -/
def relaid : Likeness where
  shift := 0
  values _ := True
  worlds := Eq
  functions := Eq
  methods d d' := d.unplaced = d'.unplaced

theorem hosts_relaid {α : Type} {R : α → α → Prop} (hR : ∀ a, R a a) (n : Native α) :
    relaid.Hosts R n n := by
  rintro w _ rfl
  cases n w with
  | ok a w' => exact .ok (hR a) rfl
  | error e w' => exact .error rfl rfl

theorem faithful_relaid (r : Registry) : relaid.Faithful r where
  literal _ := trivial
  integer _ := trivial
  boolean _ := trivial
  operator := by
    rintro w _ a b rfl - - o
    exact ⟨rfl, fun _ _ => trivial⟩
  field := by
    rintro w _ ref rfl - x
    exact ⟨rfl, fun _ _ => trivial⟩
  setField _ _ _ := hosts_relaid (fun _ => trivial) _
  method _ _ _ := hosts_relaid (fun _ => ⟨rfl, trivial⟩) _
  function := by
    rintro f _ rfl
    exact ⟨rfl, fun _ => hosts_relaid (fun _ => ⟨rfl, trivial⟩) _⟩
  declared := by
    intro d d' hd
    have hbody : Stmt.unplacedList d.body = Stmt.unplacedList d'.body := congrArg Method.body hd
    refine ⟨(congrArg Method.name hd).symm, (congrArg Method.parameters hd).symm, fun inv F => ?_⟩
    rw [← Eval.stmts_unplaced, ← hbody, Eval.stmts_unplaced]

/-- Programs that differ in offsets at most give the same value or error and leave the same
    world. -/
theorem value_congr {s s' : Source} (h : s'.unplaced = s.unplaced) (r : Registry) (w : World)
    (fuel : Nat) : Program.value r w fuel s' = Program.value r w fuel s := by
  have hmethods : List.Forall₂ relaid.methods s.methods s'.methods := by
    have hmap : s.methods.map Method.unplaced = s'.methods.map Method.unplaced :=
      (congrArg Source.methods h).symm
    rw [← List.forall₂_eq_eq_eq, List.forall₂_map_left_iff, List.forall₂_map_right_iff] at hmap
    exact hmap
  have hfields : Eval.defineFields r fuel s'.fields = Eval.defineFields r fuel s.fields := by
    have hmap : s'.fields.map Field.unplaced = s.fields.map Field.unplaced :=
      congrArg Source.fields h
    rw [← Eval.defineFields_unplaced, hmap, Eval.defineFields_unplaced]
  have hfresh : relaid.Machines (.ofRegistry r w) (.ofRegistry r w) :=
    ⟨Likeness.scopes_ofRegistry (fun _ _ => rfl) w w, rfl, ⟨rfl, fun _ => rfl, fun _ _ _ => trivial⟩,
      rfl⟩
  have hrun := ((faithful_relaid r).simulates fuel).source hfields
    (Likeness.agree_defineMethods (faithful_relaid r) hmethods) hfresh
  rw [Program.value, Program.value, Program.onFreshMachine, Program.onFreshMachine, EStateM.run,
    EStateM.run]
  generalize Eval.source r fuel s (.ofRegistry r w) = o at hrun
  generalize Eval.source r fuel s' (.ofRegistry r w) = o' at hrun
  cases hrun with
  | ok hv hm => exact Prod.ext (congrArg Except.ok hv.1.symm) hm.world.symm
  | error he hm => exact Prod.ext (congrArg Except.error he.symm) hm.world.symm

/-! ## Layouts of one text -/

/-- **Layout does not matter.**  The tokens of a text, written again in their order with other
    blanks between and around them, are found again.  Parsing gives the same program or error
    but for offsets, analysis the same facts or error but for the offset, and a run the same
    value or error and the same world. -/
theorem layout_irrelevant {text text' : String} {tokens : List Token}
    (hlex : lex text = .ok tokens) (hlaid : Laid (tokens.map Token.text) text') :
    ∃ tokens', lex text' = .ok tokens' ∧
      tokens'.map Token.unplaced = tokens.map Token.unplaced ∧
      ((parse tokens').map Source.unplaced).mapError ParseError.unplaced =
        ((parse tokens).map Source.unplaced).mapError ParseError.unplaced ∧
      ∀ s s', parse tokens = .ok s → parse tokens' = .ok s' → ∀ r,
        (analyze r s').mapError TypeError.unplaced = (analyze r s).mapError TypeError.unplaced ∧
          ∀ w fuel, Program.value r w fuel s' = Program.value r w fuel s := by
  obtain ⟨tokens', hlex', htokens⟩ := exists_lex_of_laid hlex hlaid
  have hparse := unplaced_parse_congr htokens
  refine ⟨tokens', hlex', htokens, hparse, fun s s' hs hs' r => ?_⟩
  have hsource : s'.unplaced = s.unplaced := by
    rw [hs, hs'] at hparse
    exact Except.ok.inj hparse
  refine ⟨?_, value_congr hsource r⟩
  rw [← unplaced_analyze, ← unplaced_analyze, hsource]

/-- A program without a blank that it could do without. -/
def compactText : String := "DEF main():Integer DO RETURN 6-(-1*+2);END"

/-- That program, with every token on a line of its own. -/
def spreadText : String :=
  "DEF\n\tmain\n\t(\n\t)\n\t:\n\tInteger\n\tDO\n\tRETURN\n\t6\n\t-\n\t(\n\t-1\n\t*\n\t+2\n\t)\n\t;\n\tEND\n\t"

/-- The two texts form programs that run alike. -/
theorem layout_irrelevant_spread : ∃ tokens tokens' s s', lex compactText = .ok tokens ∧
    Laid (tokens.map Token.text) spreadText ∧ lex spreadText = .ok tokens' ∧
    tokens'.map Token.unplaced = tokens.map Token.unplaced ∧
    parse tokens = .ok s ∧ parse tokens' = .ok s' ∧ s'.unplaced = s.unplaced ∧
    ∀ r w fuel, Program.value r w fuel s' = Program.value r w fuel s := by
  have hcheck : (lex compactText).toOption.map (fun tokens =>
      (parse tokens).isOk && spreadText.toList ==
        (tokens.map Token.text).flatMap fun text => text.toList ++ ['\n', '\t']) = some true := by
    decide +kernel
  rcases hlex : lex compactText with _ | tokens
  · rw [hlex] at hcheck
    cases hcheck
  · rw [hlex] at hcheck
    obtain ⟨hok, htext⟩ := Bool.and_eq_true_iff.1 (Option.some.inj hcheck)
    have hgap : Gap ['\n', '\t'] := List.all_eq_true.1 (by decide)
    have hlaid : Laid (tokens.map Token.text) spreadText :=
      ⟨[], _, List.forall_mem_nil _, spaced_flatMap hgap (by decide) _, beq_iff_eq.1 htext⟩
    obtain ⟨tokens', hlex', htokens, hparse, hrun⟩ := layout_irrelevant hlex hlaid
    rcases hs : parse tokens with _ | s
    · rw [hs] at hok
      cases hok
    · rcases hs' : parse tokens' with _ | s'
      · rw [hs, hs'] at hparse
        cases hparse
      · rw [hs, hs'] at hparse
        exact ⟨tokens, tokens', s, s', rfl, hlaid, hlex', htokens, hs, hs', Except.ok.inj hparse,
          fun r => (hrun s s' hs hs' r).2⟩

end TinyScript
