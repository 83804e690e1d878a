import SingleFile.Command
import SingleFile.Proofs.Workspace.FileSystem

/-!
# Commands and the files they touch

A command names at most one file that it may write. It writes there only as its last
step, when nothing can fail any more but the writing itself; so a command that fails
leaves every file as it was, and a run of commands leaves every file as it was that
none of them names.

Everything is stated for any state that keeps the promises of a file system, and so
in particular for a directory.

Main statement: `Command.files_safe`.
-/

namespace SingleFile

open Workspace FileSystem

namespace Workspace

variable {σ : Type} [Storage (StateM σ)] [FileSystem σ]

/-- No file has a new content. -/
def Unchanged (before after : σ) : Prop := content? after = content? before

/-- The file that a path names holds a text. -/
def Holds (state : σ) (path text : String) : Prop :=
  ∃ place, place? path = some place ∧ content? state place = some text.toUTF8

/-- The file that a path names holds a text afterwards, and no other has a new content. -/
def Written (before after : σ) (path text : String) : Prop :=
  ∃ place, place? path = some place ∧ content? after place = some text.toUTF8 ∧
    ∀ other, other ≠ place → content? after other = content? before other

theorem Unchanged.trans_written {before between after : σ} {path text : String}
    (kept : Unchanged before between) (written : Written between after path text) :
    Written before after path text := by
  rcases written with ⟨place, named, content, others⟩
  exact ⟨place, named, content, fun other different => by rw [others other different, kept]⟩

/-- Where a file holds a text already, keeping it is as good as writing it. -/
theorem Unchanged.written {before after : σ} {path text : String}
    (kept : Unchanged before after) (holds : Holds before path text) :
    Written before after path text := by
  rcases holds with ⟨place, named, content⟩
  exact ⟨place, named, by rw [kept, content], fun other _ => by rw [kept]⟩

end Workspace

theorem fromUTF8?_eq_some_iff {bytes : ByteArray} {text : String} :
    String.fromUTF8? bytes = some text ↔ bytes = text.toUTF8 := by
  constructor
  · intro read
    simp only [String.fromUTF8?] at read
    split at read
    next =>
      cases read
      rfl
    next => simp at read
  · rintro rfl
    simp only [String.fromUTF8?, String.toUTF8_eq_toByteArray, dif_pos text.isValidUTF8]
    rfl

namespace Command

/-! ## Plans -/

/-- The file that a command may write. -/
def target? : Command → Option String
  | .fmt input true false => some input
  | .fromJson _ (some out) => some out
  | _ => none

/-- What a command makes of the text of its input. -/
def Produces : Command → String → String → Prop
  | .format _, source, output | .fmt _ _ _, source, output =>
    Document.format source = .ok output
  | .assemble _, source, output | .fromJson _ _, source, output =>
    ∃ document, Compiler.readDocumentText source = .ok document ∧ document.render = .ok output

theorem formatContent_eq_ok_iff {path content output : String} {changed : Bool} :
    (formatContent path content).2 = .ok (output, changed) ↔
      Document.format content = .ok output ∧ changed = decide (output ≠ content) := by
  rw [formatContent, Document.format]
  rcases Document.formatWithEvents content with ⟨events, result⟩
  cases result with
  | error error => simp
  | ok text =>
      simp only [Except.ok.injEq, Prod.mk.injEq]
      constructor
      · rintro ⟨rfl, rfl⟩
        exact ⟨rfl, rfl⟩
      · rintro ⟨rfl, rfl⟩
        exact ⟨rfl, rfl⟩

theorem exists_of_assembleContent {path content output : String}
    (assembled : (assembleContent path content).2 = .ok output) :
    ∃ document, Compiler.readDocumentText content = .ok document ∧
      document.render = .ok output := by
  rw [assembleContent] at assembled
  cases read : Compiler.readDocumentText content with
  | error error => simp [read] at assembled
  | ok document =>
      refine ⟨document, rfl, ?_⟩
      cases printed : document.render with
      | error error => simp [read, Document.renderWithEvents, printed] at assembled
      | ok text => simpa [read, Document.renderWithEvents, printed] using assembled

/-- A plan writes a text to the file that a command names, or nothing: then no file is
named, or what is named is the input, and its text is the same already. -/
def Fits (command : Command) (content output : String) (plan : Plan) : Prop :=
  (plan.change = none ∧ command.target? = none) ∨
  (plan.change = none ∧ command.target? = some command.input ∧ output = content) ∨
  ∃ folder path, plan.change = some ⟨folder, path, output⟩ ∧ command.target? = some path

theorem fits_of_planFmt {input content output : String} {changed write check : Bool}
    {plan : Plan} (same : changed = false → output = content)
    (planned : planFmt input output changed write check = .ok plan) :
    Fits (.fmt input write check) content output plan := by
  cases check with
  | true =>
      cases changed with
      | true => simp [planFmt] at planned
      | false =>
          cases planned
          exact .inl ⟨rfl, by cases write <;> rfl⟩
  | false =>
      cases write with
      | false =>
          cases planned
          exact .inl ⟨rfl, rfl⟩
      | true =>
          cases changed with
          | true =>
              cases planned
              exact .inr (.inr ⟨none, input, rfl, rfl⟩)
          | false =>
              cases planned
              exact .inr (.inl ⟨rfl, rfl, same rfl⟩)

theorem exists_of_map {result : Except Failure α} {image : α → β} {mapped : β}
    (succeeds : result.map image = .ok mapped) :
    ∃ value, result = .ok value ∧ image value = mapped := by
  cases result with
  | error failure => simp [Except.map] at succeeds
  | ok value => exact ⟨value, rfl, Except.ok.inj succeeds⟩

theorem fits_of_planContent {command : Command} {content : String} {plan : Plan}
    (planned : (command.planContent content).2 = .ok plan) :
    ∃ output, command.Produces content output ∧ command.Fits content output plan := by
  cases command with
  | format input =>
      rcases exists_of_map planned with ⟨result, formatted, rfl⟩
      exact ⟨result.1, (formatContent_eq_ok_iff.1 formatted).1, .inl ⟨rfl, rfl⟩⟩
  | fmt input write check =>
      simp only [planContent] at planned
      cases formatted : (formatContent input content).2 with
      | error failure => simp [formatted, Except.bind] at planned
      | ok result =>
          rcases formatContent_eq_ok_iff.1 formatted with ⟨produced, changed⟩
          simp only [formatted, Except.bind] at planned
          exact ⟨result.1, produced, fits_of_planFmt (by simp [changed]) planned⟩
  | assemble input =>
      rcases exists_of_map planned with ⟨output, assembled, rfl⟩
      exact ⟨output, exists_of_assembleContent assembled, .inl ⟨rfl, rfl⟩⟩
  | fromJson input out =>
      rcases exists_of_map planned with ⟨output, assembled, rfl⟩
      refine ⟨output, exists_of_assembleContent assembled, ?_⟩
      cases out with
      | none => exact .inl ⟨rfl, rfl⟩
      | some out => exact .inr (.inr ⟨parent? out, out, rfl, rfl⟩)

/-! ## Runs -/

section Run

variable {σ : Type} [Storage (StateM σ)]

/-- What a command answers in a state. -/
def outcome (command : Command) (state : σ) : Except Failure Answer :=
  ((command.run : StateM σ _).run state).1.2

/-- The state after a command. -/
def after (command : Command) (state : σ) : σ := ((command.run : StateM σ _).run state).2

/-- The state after commands, one after the other. -/
def afterAll (commands : List Command) (state : σ) : σ :=
  commands.foldl (fun state command => command.after state) state

/-- A file can be read, and is a text. -/
def Reads (state : σ) (path text : String) : Prop :=
  ((Storage.read path : StateM σ _).run state).1 = some text.toUTF8

/-- The plan of a command in a state. -/
def planIn (command : Command) (state : σ) : Except Failure Plan :=
  (command.plan ((Storage.read command.input : StateM σ _).run state).1).2

/-- The state after the input of a command has been read. -/
def opened (command : Command) (state : σ) : σ :=
  ((Storage.read command.input : StateM σ _).run state).2

/-- Running a command is reading its input and then performing its plan. -/
theorem run_eq (command : Command) (state : σ) :
    (command.outcome state, command.after state) =
      match command.planIn state with
      | .error failure => (.error failure, command.opened state)
      | .ok plan => (plan.perform : StateM σ _).run (command.opened state) := by
  simp only [outcome, after, run, planIn, opened, StateT.run_bind]
  rcases (Storage.read command.input : StateM σ _).run state with ⟨bytes, read⟩
  simp only [bind]
  rcases command.plan bytes with ⟨events, planned⟩
  cases planned with
  | error failure => rfl
  | ok plan => rfl

/-- Whether the folder of a change is there after making it, and the state then. -/
def prepared (change : Change) (state : σ) : Bool × σ :=
  match change.folder with
  | none => (true, state)
  | some folder => (Storage.makeFolders folder : StateM σ _).run state

theorem run_perform (change : Change) (state : σ) :
    (change.perform : StateM σ _).run state =
      match prepared change state with
      | (false, made) => (.error (.makeFolder (change.folder.getD "")), made)
      | (true, made) =>
        match (Storage.write change.path change.content.toUTF8 : StateM σ _).run made with
        | (true, after) => (.ok (), after)
        | (false, after) => (.error (.write change.path), after) := by
  have run : (change.perform : StateM σ _).run state =
      (if (prepared change state).1 then do
        if ← Storage.write change.path change.content.toUTF8 then return .ok ()
        else return .error (.write change.path)
      else return .error (.makeFolder (change.folder.getD "")) : StateM σ _).run
        (prepared change state).2 := by
    rcases change with ⟨folder, path, content⟩
    cases folder <;> rfl
  rw [run]
  rcases prepared change state with ⟨ready, made⟩
  cases ready with
  | false => rfl
  | true =>
      simp only [if_true, StateT.run_bind]
      rcases (Storage.write change.path change.content.toUTF8 : StateM σ _).run made with
        ⟨done, after⟩
      cases done with
      | false => rfl
      | true => rfl

theorem run_perform_none {plan : Plan} (idle : plan.change = none) (state : σ) :
    (plan.perform : StateM σ _).run state = (.ok plan.answer, state) := by
  simp only [Plan.perform, idle]
  rfl

theorem run_perform_some {plan : Plan} {change : Change} (changes : plan.change = some change)
    (state : σ) :
    (plan.perform : StateM σ _).run state =
      (((change.perform : StateM σ _).run state).1.map fun _ => plan.answer,
        ((change.perform : StateM σ _).run state).2) := by
  simp only [Plan.perform, changes]
  rfl

/-- A plan is made from a text, which the input of the command holds. -/
theorem exists_of_planIn {command : Command} {state : σ} {plan : Plan}
    (planned : command.planIn state = .ok plan) :
    ∃ source, Reads state command.input source ∧
      (command.planContent source).2 = .ok plan := by
  simp only [planIn, Command.plan] at planned
  split at planned
  next => simp at planned
  next source decoded =>
    rcases Option.bind_eq_some_iff.1 decoded with ⟨bytes, read, text⟩
    rw [fromUTF8?_eq_some_iff] at text
    exact ⟨source, by rw [Reads, read, text], planned⟩

theorem planIn_of_reads {command : Command} {state : σ} {source : String}
    (reads : Reads state command.input source) :
    command.planIn state = (command.planContent source).2 := by
  have decoded := fromUTF8?_eq_some_iff.2 (rfl : source.toUTF8 = source.toUTF8)
  rw [Reads] at reads
  simp only [planIn, Command.plan, reads, Option.bind_some, decoded]

theorem planContent_check_iff {input content : String} {write : Bool} {plan : Plan} :
    ((Command.fmt input write true).planContent content).2 = .ok plan ↔
      Document.format content = .ok content ∧ plan = ⟨none, .shown ""⟩ := by
  simp only [planContent]
  cases formatted : (formatContent input content).2 with
  | error failure =>
      have refused : ¬ Document.format content = .ok content := fun canonical => by
        have formats := (@formatContent_eq_ok_iff input content content _).2 ⟨canonical, rfl⟩
        simp [formatted] at formats
      simp [Except.bind, refused]
  | ok result =>
      rcases result with ⟨output, changed⟩
      rcases formatContent_eq_ok_iff.1 formatted with ⟨produced, rfl⟩
      rw [produced]
      by_cases same : output = content
      · simp [Except.bind, planFmt, same, eq_comm]
      · simp [Except.bind, planFmt, same]

/-- A check succeeds exactly on files that are readable texts in canonical form. -/
theorem outcome_check_iff {input : String} {write : Bool} {state : σ} :
    (∃ answer, (Command.fmt input write true).outcome state = .ok answer) ↔
      ∃ source, Reads state input source ∧ Document.format source = .ok source := by
  have run := run_eq (.fmt input write true) state
  constructor
  · rintro ⟨answer, succeeds⟩
    cases planned : (Command.fmt input write true).planIn state with
    | error failure => simp [planned, succeeds] at run
    | ok plan =>
        rcases exists_of_planIn planned with ⟨source, reads, fromSource⟩
        exact ⟨source, reads, (planContent_check_iff.1 fromSource).1⟩
  · rintro ⟨source, reads, canonical⟩
    have planned : (Command.fmt input write true).planIn state = .ok ⟨none, .shown ""⟩ := by
      rw [@planIn_of_reads σ _ (.fmt input write true) state source reads]
      exact planContent_check_iff.2 ⟨canonical, rfl⟩
    simp only [planned, run_perform_none, Prod.mk.injEq] at run
    exact ⟨_, run.1⟩

variable [FileSystem σ]

theorem unchanged_prepared (change : Change) (state : σ) :
    Unchanged state (prepared change state).2 := by
  rcases change with ⟨folder, path, content⟩
  cases folder with
  | none => rfl
  | some folder => exact content?_makeFolders folder state

theorem write_cases (path text : String) (state : σ) :
    (∃ after, (Storage.write path text.toUTF8 : StateM σ _).run state = (false, after) ∧
      Unchanged state after) ∨
    ∃ after, (Storage.write path text.toUTF8 : StateM σ _).run state = (true, after) ∧
      Written state after path text := by
  have failed := @content?_write_of_failed σ _ _ path text.toUTF8 state
  have written := @exists_place_of_write σ _ _ path text.toUTF8 state
  generalize (Storage.write path text.toUTF8 : StateM σ _).run state = result at failed written ⊢
  rcases result with ⟨done, after⟩
  cases done with
  | false => exact .inl ⟨after, rfl, failed rfl⟩
  | true => exact .inr ⟨after, rfl, written rfl⟩

/-- A change is performed in full, or no file changes. -/
theorem perform_cases (change : Change) (state : σ) :
    (∃ failure after, (change.perform : StateM σ _).run state = (.error failure, after) ∧
      Unchanged state after) ∨
    ∃ after, (change.perform : StateM σ _).run state = (.ok (), after) ∧
      Written state after change.path change.content := by
  have folders := unchanged_prepared change state
  rw [run_perform]
  generalize prepared change state = result at folders ⊢
  rcases result with ⟨ready, made⟩
  cases ready with
  | false => exact .inl ⟨_, made, rfl, folders⟩
  | true =>
      rcases write_cases change.path change.content made with
        ⟨after, failed, kept⟩ | ⟨after, done, written⟩
      · exact .inl ⟨.write change.path, after, by simp only [failed], kept.trans folders⟩
      · exact .inr ⟨after, by simp only [done], folders.trans_written written⟩

theorem unchanged_opened (command : Command) (state : σ) :
    Unchanged state (command.opened state) := content?_read command.input state

theorem holds_of_reads {state : σ} {path text : String} (reads : Reads state path text) :
    Holds state path text := exists_place_of_read reads

/-- What a command can do: it fails and changes no file; or it reads a text, and what it
makes of it is in the file that it names, if it names one, and no other file changes. -/
theorem run_cases (command : Command) (state : σ) :
    (∃ failure, command.outcome state = .error failure ∧
      Unchanged state (command.after state)) ∨
    ∃ answer source output, command.outcome state = .ok answer ∧
      Reads state command.input source ∧ command.Produces source output ∧
      (command.target? = none ∧ Unchanged state (command.after state) ∨
        ∃ path, command.target? = some path ∧
          Written state (command.after state) path output) := by
  have run := run_eq command state
  have untouched := unchanged_opened command state
  cases planned : command.planIn state with
  | error failure =>
      simp only [planned, Prod.mk.injEq] at run
      exact .inl ⟨failure, run.1, run.2 ▸ untouched⟩
  | ok plan =>
      rcases exists_of_planIn planned with ⟨source, reads, fromSource⟩
      rcases fits_of_planContent fromSource with ⟨output, produced, fits⟩
      simp only [planned] at run
      rcases fits with ⟨idle, untargeted⟩ | ⟨idle, target, same⟩ | ⟨folder, path, change, target⟩
      · rw [run_perform_none idle, Prod.mk.injEq] at run
        exact .inr ⟨_, source, output, run.1, reads, produced,
          .inl ⟨untargeted, run.2 ▸ untouched⟩⟩
      · rw [run_perform_none idle, Prod.mk.injEq] at run
        have kept : Unchanged state (command.after state) := run.2 ▸ untouched
        have written := kept.written (holds_of_reads reads)
        exact .inr ⟨_, source, output, run.1, reads, produced,
          .inr ⟨command.input, target, same ▸ written⟩⟩
      · rw [run_perform_some change, Prod.mk.injEq] at run
        rcases perform_cases ⟨folder, path, output⟩ (command.opened state) with
          ⟨failure, after, performed, kept⟩ | ⟨after, performed, written⟩
        · rw [performed] at run
          exact .inl ⟨failure, run.1, run.2 ▸ kept.trans untouched⟩
        · rw [performed] at run
          exact .inr ⟨plan.answer, source, output, run.1, reads, produced,
            .inr ⟨path, target, run.2 ▸ untouched.trans_written written⟩⟩

/-- One command leaves every file alone but the one that it names. -/
theorem content?_after {command : Command} {place : Place σ}
    (unnamed : ∀ path ∈ command.target?, place? path ≠ some place) (state : σ) :
    content? (command.after state) place = content? state place := by
  rcases run_cases command state with
    ⟨_, _, kept⟩ | ⟨_, _, _, _, _, _, ⟨_, kept⟩ | ⟨path, target, file, named, _, others⟩⟩
  · rw [kept]
  · rw [kept]
  · apply others place
    rintro rfl
    exact unnamed path target named

/-- So does a run of commands. -/
theorem content?_afterAll {commands : List Command} {place : Place σ}
    (unnamed : ∀ command ∈ commands, ∀ path ∈ command.target?, place? path ≠ some place)
    (state : σ) : content? (afterAll commands state) place = content? state place := by
  induction commands generalizing state with
  | nil => rfl
  | cons command commands ih =>
      rcases List.forall_mem_cons.1 unnamed with ⟨first, others⟩
      calc content? (afterAll (command :: commands) state) place
          = content? (afterAll commands (command.after state)) place := rfl
        _ = content? (command.after state) place := ih others (command.after state)
        _ = content? state place := content?_after first state

end Run

/-- Files are safe from commands. A command that fails, or that names no file to write,
changes no file. One that names a file and succeeds puts there what it makes of the text
of its input, and changes no other file. Through a run, a file that no command names
keeps its content. A check succeeds exactly where the input is a readable text in
canonical form. -/
theorem files_safe {σ : Type} [Storage (StateM σ)] [FileSystem σ] :
    (∀ (command : Command) (state : σ),
      (∀ failure, command.outcome state = .error failure →
        Unchanged state (command.after state)) ∧
      (command.target? = none → Unchanged state (command.after state)) ∧
      ∀ path ∈ command.target?, ∀ answer, command.outcome state = .ok answer →
        ∃ source output, Holds state command.input source ∧ command.Produces source output ∧
          Written state (command.after state) path output) ∧
    (∀ (commands : List Command) (state : σ) (place : Place σ),
      (∀ command ∈ commands, ∀ path ∈ command.target?, place? path ≠ some place) →
        content? (afterAll commands state) place = content? state place) ∧
    ∀ (input : String) (write : Bool) (state : σ),
      (∃ answer, (Command.fmt input write true).outcome state = .ok answer) ↔
        ∃ source, Reads state input source ∧ Document.format source = .ok source := by
  refine ⟨fun command state => ?_, fun commands state place unnamed =>
    content?_afterAll unnamed state, fun input write state => outcome_check_iff⟩
  rcases run_cases command state with
    ⟨failure, failed, kept⟩ |
    ⟨answer, source, output, succeeds, reads, produced, ⟨untargeted, kept⟩ |
      ⟨path, target, written⟩⟩
  · exact ⟨fun _ _ => kept, fun _ => kept, fun _ _ _ succeeds => by simp [failed] at succeeds⟩
  · exact ⟨fun _ _ => kept, fun _ => kept, fun _ target => by simp [untargeted] at target⟩
  · refine ⟨fun _ failed => by simp [succeeds] at failed, fun untargeted => ?_, ?_⟩
    · simp [target] at untargeted
    · intro other named answer _
      rw [target, Option.mem_some_iff] at named
      subst named
      exact ⟨source, output, holds_of_reads reads, produced, written⟩

/-- Two files: `a` is not in canonical form, and `b` is not compiler output. -/
def sampleDirectory : Directory :=
  ⟨[(["a"], .file "x<i></i>".toUTF8), (["b"], .file "k".toUTF8)]⟩

theorem files_safe_sample :
    content? (afterAll [.fmt "a" true false, .fromJson "b" (some "./c")] sampleDirectory)
      ["b"] = some "k".toUTF8 ∧
    (∃ source output, Holds sampleDirectory "a" source ∧
      Document.format source = .ok output ∧
      Written sampleDirectory ((Command.fmt "a" true false).after sampleDirectory) "a" output) ∧
    Unchanged sampleDirectory ((Command.fmt "a" true true).after sampleDirectory) := by
  refine ⟨?_, ?_, (files_safe.1 _ _).2.1 rfl⟩
  · have unnamed : ∀ command ∈ [Command.fmt "a" true false, .fromJson "b" (some "./c")],
        ∀ path ∈ command.target?, Directory.place? path ≠ some ["b"] := by
      decide +kernel
    exact files_safe.2.1 _ sampleDirectory _ unnamed
  · cases outcome : (Command.fmt "a" true false).outcome sampleDirectory with
    | error failure =>
        have succeeds : ((Command.fmt "a" true false).outcome sampleDirectory).isOk = true := by
          decide +kernel
        simp [outcome, Except.isOk, Except.toBool] at succeeds
    | ok answer => exact (files_safe.1 _ sampleDirectory).2.2 "a" rfl answer outcome

end Command

end SingleFile
