import SingleFile.Command.Arguments

/-!
# Runs of the program

A run takes a command line and ends with an exit code and what is written to the
two output streams. The code is 0 when the command succeeds, 1 when it fails, and 2
when the command line is wrong.
-/

namespace SingleFile.Command

open Workspace

/-- How a run of the program ends. -/
structure Outcome where
  exit : Nat
  stdout : String
  stderr : String
  deriving Repr, DecidableEq

/-- The name and version of the program. -/
def versionText : String := "sfc 0.1.0\n"

/-- How the program is used. -/
def helpText : String :=
  "Rebuild single file component source from its parsed form\n\n" ++
  "Usage: sfc fmt <INPUT> [--write | --check]\n" ++
  "       sfc from-json <INPUT> [--out <OUT>]\n"

/-- What is shown on the terminal for an answer. -/
def Answer.text : Answer → String
  | .formatted output _ => output
  | .assembled output => output
  | .shown text => text

/-- A failure as it is reported: the message, and what lies behind it. -/
def Failure.report (failure : Failure) : String :=
  "Error: " ++ failure.message ++ "\n" ++
    match failure.cause? with
    | none => ""
    | some cause => "\nCaused by:\n    " ++ cause ++ "\n"

/-- The end of a run whose command has this result. -/
def Outcome.ofResult : Except Failure Answer → Outcome
  | .ok answer => ⟨0, answer.text, ""⟩
  | .error failure => ⟨1, "", failure.report⟩

/-- Run the program with a command line. -/
def runArguments {m : Type → Type} [Monad m] [Storage m] (arguments : List String) :
    m Outcome := do
  match readArguments arguments with
  | .error error => return ⟨2, "", "error: " ++ error.message ++ "\n"⟩
  | .ok .version => return ⟨0, versionText, ""⟩
  | .ok .help => return ⟨0, helpText, ""⟩
  | .ok (.run command) => return Outcome.ofResult (← command.run).2

/-- Run the program in a directory. -/
def runArgumentsIn (arguments : List String) (directory : Directory) : Directory × Outcome :=
  let (outcome, after) := (runArguments arguments : StateM Directory _).run directory
  (after, outcome)

end SingleFile.Command
