import TinyScript.Program

/-
  The command line: its arguments and what is answered to them.

  Flags may stand anywhere, short ones may be joined, and `--` ends them.  The
  arguments are read from left to right, and the first that settles the answer
  (help, version, or a mistake) wins; missing contents and flags that exclude
  each other are noticed at the end.
-/

namespace TinyScript

namespace CommandLine

/-- What to run and how. -/
structure Options where
  /-- Whether the contents name a file. -/
  file : Bool := false
  /-- Whether to stop after analysis. -/
  check : Bool := false
  /-- Whether to run without analysis. -/
  unchecked : Bool := false
  /-- The program text, or the name of its file. -/
  contents : Option String := none
deriving DecidableEq

/-- What the arguments ask for. -/
inductive Request where
  /-- The help text. -/
  | help
  /-- The version. -/
  | version
  /-- To run or check a program; `isFile` says what the contents are. -/
  | run (mode : Mode) (isFile : Bool) (contents : String)
  /-- Nothing: the arguments are wrong. -/
  | usageError
deriving DecidableEq

/-! ## Reading the arguments -/

/-- Sets a flag that was not set before. -/
def setOnce (was : Bool) (o : Options) : Except Request Options :=
  if was then .error .usageError else .ok o

/-- A flag by its short name. -/
def shortFlag (o : Options) : Char → Except Request Options
  | 'f' => setOnce o.file { o with file := true }
  | 'c' => setOnce o.check { o with check := true }
  | 'u' => setOnce o.unchecked { o with unchecked := true }
  | 'h' => .error .help
  | 'V' => .error .version
  | _ => .error .usageError

/-- The short names of the long flags. -/
def longFlags : List (String × Char) :=
  [("--file", 'f'), ("--check", 'c'), ("--unchecked", 'u'), ("--help", 'h'), ("--version", 'V')]

/-- A flag by its long name. -/
def longFlag (o : Options) (name : String) : Except Request Options :=
  match Table.get? name longFlags with
  | some c => shortFlag o c
  | none => .error .usageError

/-- An argument that is not a flag. -/
def positional (o : Options) (a : String) : Except Request Options :=
  if o.contents.isSome then .error .usageError else .ok { o with contents := some a }

/-- One argument before the end of the flags. -/
def argument (o : Options) (a : String) : Except Request Options :=
  match a.toList with
  | '-' :: '-' :: _ => longFlag o a
  | '-' :: c :: cs => (c :: cs).foldlM shortFlag o
  | _ => positional o a

/-- All arguments, as long as none settles the answer. -/
def arguments (o : Options) : List String → Except Request Options
  | [] => .ok o
  | a :: as => if a = "--" then as.foldlM positional o else do arguments (← argument o a) as

/-- The request that a full set of options makes. -/
def Options.request (o : Options) : Request :=
  match o.contents with
  | none => .usageError
  | some contents =>
    if o.check && o.unchecked then .usageError
    else
      let mode := if o.check then .checkOnly else if o.unchecked then .unchecked else .checked
      .run mode o.file contents

/-- What the arguments ask for. -/
def request (args : List String) : Request :=
  match arguments {} args with
  | .ok o => o.request
  | .error r => r

/-! ## Answering -/

/-- What is written and the exit status. -/
structure Response where
  /-- The exit status, from 0 to 255. -/
  status : Nat
  /-- What goes to standard output. -/
  output : String := ""
  /-- What goes to standard error. -/
  errors : String := ""
deriving DecidableEq

/-- The help text. -/
def helpText : String := "\n".intercalate
  ["Lexer, parser, static analyzer and tree-walking interpreter for a small statically typed scripting language.",
   "",
   "Usage: ember [OPTIONS] <CONTENTS>",
   "",
   "Arguments:",
   "  <CONTENTS>  ",
   "",
   "Options:",
   "  -f, --file       Tells ember to look at a file instead of a script",
   "  -c, --check      Stops after the program has been analyzed, without running it",
   "  -u, --unchecked  Runs the program without analyzing it first",
   "  -h, --help       Print help",
   "  -V, --version    Print version",
   ""]

/-- The version text. -/
def versionText : String := "ember 0.1.0\n"

/-- The text written for wrong arguments. -/
def usageText : String := "Usage: ember [OPTIONS] <CONTENTS>\n"

/-- The answer to a program that was run or checked. -/
def ofVerdict : Verdict × World → Response
  | (.exit status, w) => { status := (status % 256).toNat, output := w.output }
  | (.accepted, w) => { status := 0, output := w.output }
  | (.failed e, w) => { status := 1, output := w.output, errors := e.message ++ "\n" }
  | (.outOfFuel, w) => { status := 1, output := w.output, errors := "Out of fuel.\n" }

/-- The answer to a request; `contentsOf` gives the contents of a readable file. -/
def respond (contentsOf : String → Option String) : Request → Response
  | .help => { status := 0, output := helpText }
  | .version => { status := 0, output := versionText }
  | .usageError => { status := 2, errors := usageText }
  | .run mode isFile contents =>
    match if isFile then contentsOf contents else some contents with
    | some text => ofVerdict (Program.process .standard {} mode Program.ampleFuel text)
    | none =>
      { status := 1
        errors := s!"Failed to read the input file '{contents}'. Perhaps this file does not exist?\n" }

end CommandLine

end TinyScript
