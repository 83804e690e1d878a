import SingleFile.Compiler.Descriptor
import SingleFile.Document.Format
import SingleFile.Workspace.Storage

/-!
# Commands on files

A command reads one file, decides from its content alone what to answer and what to
write, and then writes at most one file. The decision is a pure function, `plan`;
`run` puts it between reading and writing.
-/

namespace SingleFile

open Workspace

/-- A command on files. -/
inductive Command where
  /-- Format a component and say whether that changes it. -/
  | format (input : String)
  /-- Format a component: show the result, write it back, or only check. -/
  | fmt (input : String) (write check : Bool)
  /-- Print the component that compiler output describes. -/
  | assemble (input : String)
  /-- Print the component that compiler output describes, or write it to a file. -/
  | fromJson (input : String) (out : Option String)
  deriving Repr, DecidableEq

namespace Command

/-- The file that a command reads. -/
def input : Command → String
  | .format input => input
  | .fmt input _ _ => input
  | .assemble input => input
  | .fromJson input _ => input

/-- What a command that succeeds answers. -/
inductive Answer where
  | formatted (output : String) (changed : Bool)
  | assembled (output : String)
  /-- What is shown on the terminal. -/
  | shown (text : String)
  deriving Repr, DecidableEq

/-- Why a command fails. -/
inductive Failure where
  | read (path : String)
  | makeFolder (path : String)
  | write (path : String)
  | format (path : String) (cause : FormatError)
  | load (path : String) (cause : Compiler.Error)
  | print (path : String) (cause : Markup.ArgumentError)
  | notCanonical (path : String)

namespace Failure

/-- What is reported of a failure; paths are shown as they were given. -/
def message : Failure → String
  | .read path => "failed to read " ++ path
  | .makeFolder path => "failed to create " ++ path
  | .write path => "failed to write " ++ path
  | .format path _ => "failed to format " ++ path
  | .load path _ => "failed to load compiler output from " ++ path
  | .print path _ => "failed to stringify " ++ path
  | .notCanonical path => path ++ " is not in canonical form"

/-- What lies behind a failure, if anything is known of it. -/
def cause? : Failure → Option String
  | .read _ | .makeFolder _ | .write _ => some "the file system refused"
  | .format _ (.read error) => some error.message
  | .format _ (.print error) => some error.message
  | .load _ error => some error.message
  | .print _ error => some error.message
  | .notCanonical _ => none

end Failure

/-- A file to be written, and a folder to be made before that. -/
structure Change where
  folder : Option String
  path : String
  content : String
  deriving Repr, DecidableEq

/-- What a command will do: write a file, if there is a change, and then answer. -/
structure Plan where
  change : Option Change
  answer : Answer
  deriving Repr, DecidableEq

/-- Format the content of a file, with the report: the formatted text, and whether it
differs. -/
def formatContent (path content : String) : List Event × Except Failure (String × Bool) :=
  match Document.formatWithEvents content with
  | (events, .error error) => (events, .error (.format path error))
  | (events, .ok output) =>
    (events ++ [.formatted path (output ≠ content)], .ok (output, output ≠ content))

/-- Print the component that compiler output describes, with the report. -/
def assembleContent (path content : String) : List Event × Except Failure String :=
  match Compiler.readDocumentText content with
  | .error error => ([], .error (.load path error))
  | .ok document =>
    match document.renderWithEvents with
    | (events, .error error) => (events, .error (.print path error))
    | (events, .ok output) => (events, .ok output)

/-- What to do with a formatted component. A check comes before writing, and nothing is
written where nothing changes. -/
def planFmt (input output : String) (changed write check : Bool) : Except Failure Plan :=
  if check then
    if changed then .error (.notCanonical input) else .ok ⟨none, .shown ""⟩
  else if write then
    if changed then
      .ok ⟨some ⟨none, input, output⟩, .shown ("Formatted: " ++ input ++ "\n")⟩
    else .ok ⟨none, .shown ""⟩
  else .ok ⟨none, .shown output⟩

/-- What to do with a printed component. -/
def planFromJson (output : String) : Option String → Plan
  | none => ⟨none, .shown output⟩
  | some out => ⟨some ⟨parent? out, out, output⟩, .shown ("Generated: " ++ out ++ "\n")⟩

/-- What a command will do, given the content of its input, with the report. -/
def planContent (content : String) : Command → List Event × Except Failure Plan
  | .format input =>
    let (events, result) := formatContent input content
    (events, result.map fun (output, changed) => ⟨none, .formatted output changed⟩)
  | .fmt input write check =>
    let (events, result) := formatContent input content
    (events, result.bind fun (output, changed) => planFmt input output changed write check)
  | .assemble input =>
    let (events, result) := assembleContent input content
    (events, result.map fun output => ⟨none, .assembled output⟩)
  | .fromJson input out =>
    let (events, result) := assembleContent input content
    (events, result.map fun output => planFromJson output out)

/-- What a command will do, given the bytes of its input if they could be read. A file
that is not UTF-8 counts as one that cannot be read. -/
def plan (command : Command) (bytes : Option ByteArray) : List Event × Except Failure Plan :=
  match bytes.bind String.fromUTF8? with
  | none => ([], .error (.read command.input))
  | some content => command.planContent content

section Run

variable {m : Type → Type} [Monad m] [Storage m]

/-- Write a file, after making its folder. -/
def Change.perform (change : Change) : m (Except Failure Unit) := do
  let ready ←
    match change.folder with
    | none => pure true
    | some folder => Storage.makeFolders folder
  if ready then
    if ← Storage.write change.path change.content.toUTF8 then return .ok ()
    else return .error (.write change.path)
  else return .error (.makeFolder (change.folder.getD ""))

/-- Do what is planned. -/
def Plan.perform (plan : Plan) : m (Except Failure Answer) := do
  match plan.change with
  | none => return .ok plan.answer
  | some change => return (← change.perform).map fun _ => plan.answer

/-- Run a command, with the report. -/
def run (command : Command) : m (List Event × Except Failure Answer) := do
  match command.plan (← Storage.read command.input) with
  | (events, .error failure) => return (events, .error failure)
  | (events, .ok plan) => return (events, ← plan.perform)

end Run

/-- Run a command in a directory: the directory afterwards, the report, and the answer. -/
def runIn (command : Command) (directory : Directory) :
    Directory × List Event × Except Failure Answer :=
  let (result, after) := (command.run : StateM Directory _).run directory
  (after, result)

end Command

end SingleFile
