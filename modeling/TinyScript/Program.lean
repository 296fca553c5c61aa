import TinyScript.Machine.Exec
import TinyScript.Token.Cursor
import TinyScript.Tree.SourceParser
import TinyScript.Typing.Source

/-
  Programs from text to exit status: lexing, parsing, analysis and execution, as
  far as a mode asks for them.
-/

namespace TinyScript

attribute [local instance (high)] instPowNat

/-- Which stages follow parsing. -/
inductive Mode where
  /-- Analysis, then execution. -/
  | checked
  /-- Analysis only. -/
  | checkOnly
  /-- Execution only. -/
  | unchecked
deriving DecidableEq, Inhabited

/-- The first error of any stage. -/
inductive Failure where
  /-- The text has no tokens. -/
  | lex (error : LexError)
  /-- The tokens form no program. -/
  | parse (error : ParseError)
  /-- The program is rejected. -/
  | type (error : TypeError)
  /-- The run failed. -/
  | runtime (error : RuntimeError)
deriving DecidableEq

/-- The text shown for a failure. -/
def Failure.message : Failure → String
  | lex e => e.message
  | parse e => e.message
  | type e => e.message
  | runtime e => e.message

/-- How processing a program ended. -/
inductive Verdict where
  /-- The program ran and gave this exit status. -/
  | exit (status : Int)
  /-- The program was only checked, and accepted. -/
  | accepted
  /-- Some stage failed. -/
  | failed (cause : Failure)
  /-- The run needs more fuel. -/
  | outOfFuel
deriving DecidableEq

namespace Program

/-- More fuel than any run can use in practice. -/
def ampleFuel : Nat := 2 ^ (62 : Nat)

/-- The tree of a program. -/
def read (text : String) : Except Failure Source := do
  let tokens ← (lex text).mapError .lex
  (parse tokens).mapError .parse

/-- Runs a computation on a fresh machine. -/
def onFreshMachine {α : Type} (r : Registry) (world : World) (step : Eval α) :
    Except Stop α × World :=
  match step.run (.ofRegistry r world) with
  | .ok a m => (.ok a, m.world)
  | .error e m => (.error e, m.world)

/-- Runs a program on a fresh machine and gives the value of its `main`. -/
def value (r : Registry) (world : World) (fuel : Nat) (s : Source) : Except Stop Value × World :=
  onFreshMachine r world (Eval.source r fuel s)

/-- Runs a program and gives its exit status. -/
def execute (r : Registry) (world : World) (fuel : Nat) (s : Source) : Verdict × World :=
  match value r world fuel s with
  | (.ok v, w) =>
    match v.exitStatus with
    | .ok status => (.exit status, w)
    | .error e => (.failed (.runtime e), w)
  | (.error (.error e), w) => (.failed (.runtime e), w)
  | (.error .outOfFuel, w) => (.outOfFuel, w)

/-- Analyses a program if the mode asks for it. -/
def check (r : Registry) (mode : Mode) (s : Source) : Except Failure Unit :=
  if mode = .unchecked then .ok () else ((analyze r s).mapError .type).map fun _ => ()

/-- Takes a text through the stages that the mode asks for. -/
def process (r : Registry) (world : World) (mode : Mode) (fuel : Nat) (text : String) :
    Verdict × World :=
  match read text with
  | .error e => (.failed e, world)
  | .ok s =>
    match check r mode s with
    | .error e => (.failed e, world)
    | .ok () => if mode = .checkOnly then (.accepted, world) else execute r world fuel s

end Program

end TinyScript
