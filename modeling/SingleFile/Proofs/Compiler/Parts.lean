import SingleFile.Proofs.Compiler.Node

/-!
# The parts of compiler output

An object that stands for a node holds its parts under fixed keys: children and
properties in arrays, other nodes directly, and the modifiers of a directive in an
array. A step of a path leads to such a part, `Value.part?`, and says as what it is
read: as a node, as a property or as a modifier.

Reading an object succeeds only if reading each of its parts does, and it fails for a
reason of its own or for that of a part. `Parted` states this of a result; it is passed
on from reader to reader, so that every reader is opened once.

Main statements: `readNode_parted` and `readProp_parted`.
-/

namespace SingleFile.Json.Value

open SingleFile.Markup

/-- The item of an array at a key. -/
def item? (value : Value) (key : String) (index : Nat) : Option Value :=
  match value.field? key with
  | some (.array items) => items[index]?
  | _ => none

/-- The part of an object at a step. -/
def part? (value : Value) : Step → Option Value
  | .child index => value.item? "children" index
  | .prop index => value.item? "props" index
  | .value => value.field? "value"
  | .content => value.field? "content"
  | .arg => value.field? "arg"
  | .exp => value.field? "exp"
  | .modifier index => value.item? "modifiers" index

/-- The value that a path leads to, step by step. -/
def at? (value : Value) : TreePath → Option Value
  | [] => some value
  | step :: path => (value.part? step).bind (·.at? path)

/-- The number that marks an object as one of a kind. -/
def type? (value : Value) : Option Nat :=
  match value.field? "type" with
  | some (.number written) => written.toNat?
  | _ => none

end SingleFile.Json.Value

namespace SingleFile.Markup

/-- The steps from an object of a kind to the nodes that it holds. -/
def Kind.holds : Kind → Step → Bool
  | .root, .child _ | .element, .child _ | .element, .prop _ | .interpolation, .content
  | .attribute, .value | .directive, .arg | .directive, .exp => true
  | _, _ => false

/-- Whether `null` at a step stands for no part at all. -/
def Step.isOptional : Step → Bool
  | .value | .arg | .exp => true
  | _ => false

end SingleFile.Markup

namespace SingleFile.Compiler

open SingleFile.Markup SingleFile.Json

/-- What a value is read as. -/
inductive Role where
  | node
  | prop
  | modifier
  deriving Repr, DecidableEq

/-- What the part at a step is read as. -/
def roleOf : Step → Role
  | .prop _ => .prop
  | .modifier _ => .modifier
  | .child _ | .value | .content | .arg | .exp => .node

/-- Read a value for its role, without keeping the result. -/
def Role.check (role : Role) (value : Value) : Except Error Unit :=
  match role with
  | .node => (readNode value).map fun _ => ()
  | .prop => (readProp value).map fun _ => ()
  | .modifier => (readModifier value).map fun _ => ()

/-- An error that concerns the object itself and not its kind. -/
def Error.IsLocal : Error → Prop
  | .unreadableTag => True
  | .malformed _ path => path = []
  | _ => False

/-- A result of reading something with these parts: all of them are accepted, or the error is
that of one of them or a local one. -/
def Parted (parts : Step → Value → Prop) : Except Error α → Prop
  | .ok _ => ∀ step part, parts step part → (roleOf step).check part = .ok ()
  | .error error => error.IsLocal ∨ ∃ step part inner, parts step part ∧
      (roleOf step).check part = .error inner ∧ error = inner.under step

/-! ## Results put together -/

theorem map_eq_error_iff {result : Except Error α} {write : α → β} {error : Error} :
    result.map write = .error error ↔ result = .error error := by
  cases result <;> simp [Except.map]

theorem map_unit_eq_ok_iff {result : Except Error α} :
    (result.map fun _ => ()) = .ok () ↔ ∃ found, result = .ok found := by
  cases result <;> simp [Except.map]

namespace Parted

variable {parts first second : Step → Value → Prop}

theorem congr {result : Except Error α} (parted : Parted first result)
    (same : ∀ step part, parts step part ↔ first step part) : Parted parts result := by
  have equal : parts = first := funext fun step => funext fun part => propext (same step part)
  rwa [equal]

/-- Something without parts is read, or fails for a local reason. -/
theorem of_isLocal {result : Except Error α}
    (isLocal : ∀ error, result = .error error → error.IsLocal) :
    Parted (fun _ _ => False) result := by
  cases result with
  | ok found => simp [Parted]
  | error error => exact .inl (isLocal error rfl)

theorem bind {result : Except Error α} {next : α → Except Error β}
    (parted : Parted first result) (later : ∀ found, Parted second (next found)) :
    Parted (fun step part => first step part ∨ second step part) (result >>= next) := by
  cases result with
  | ok found =>
      have rest := later found
      change Parted _ (next found)
      cases outcome : next found with
      | ok value =>
          rw [outcome] at rest
          rintro step part (isPart | isPart)
          · exact parted step part isPart
          · exact rest step part isPart
      | error error =>
          rw [outcome] at rest
          rcases rest with isLocal | ⟨step, part, inner, isPart, refused, equal⟩
          · exact .inl isLocal
          · exact .inr ⟨step, part, inner, .inr isPart, refused, equal⟩
  | error error =>
      rcases parted with isLocal | ⟨step, part, inner, isPart, refused, equal⟩
      · exact .inl isLocal
      · exact .inr ⟨step, part, inner, .inl isPart, refused, equal⟩

theorem map {result : Except Error α} (parted : Parted first result) (write : α → β) :
    Parted first (result >>= fun found => pure (write found)) := by
  cases result with
  | ok found => exact parted
  | error error => exact parted

/-- A part that is read for its role is the only part of this reading. -/
theorem within {step : Step} {part : Value} {result : Except Error α}
    (checked : (roleOf step).check part = result.map fun _ => ()) :
    Parted (fun other value => other = step ∧ value = part) (within step result) := by
  cases result with
  | ok found =>
      rintro _ _ ⟨rfl, rfl⟩
      exact checked
  | error error => exact .inr ⟨step, part, error, ⟨rfl, rfl⟩, checked, rfl⟩

end Parted

/-! ## The readers -/

theorem requireText_parted (members : Members) (key : String) :
    Parted (fun _ _ => False) (requireText members key) := by
  apply Parted.of_isLocal
  intro error failed
  unfold requireText at failed
  split at failed
  next => cases failed
  next =>
    cases failed
    rfl

theorem readRootAttrs_parted (members : Members) :
    Parted (fun _ _ => False) (readRootAttrs members) := by
  apply Parted.of_isLocal
  intro error failed
  unfold readRootAttrs at failed
  split at failed
  next => cases failed
  next =>
    cases failed
    trivial

/-- The values of an array, the first at `index`. -/
def Among (step : Nat → Step) (index : Nat) (values : List Value) (here : Step) (part : Value) :
    Prop :=
  ∃ position, here = step (index + position) ∧ values[position]? = some part

theorem among_cons {step : Nat → Step} {index : Nat} {value part : Value} {values : List Value}
    {here : Step} :
    Among step index (value :: values) here part ↔
      (here = step index ∧ part = value) ∨ Among step (index + 1) values here part := by
  constructor
  · rintro ⟨position, rfl, found⟩
    cases position with
    | zero =>
        cases found
        exact .inl ⟨rfl, rfl⟩
    | succ position =>
        refine .inr ⟨position, ?_, found⟩
        rw [Nat.add_right_comm, Nat.add_assoc]
  · rintro (⟨rfl, rfl⟩ | ⟨position, rfl, found⟩)
    · exact ⟨0, rfl, rfl⟩
    · refine ⟨position + 1, ?_, found⟩
      rw [Nat.add_right_comm, Nat.add_assoc]

/-- Reading values one after the other, each for the role of its step. -/
theorem parted_among {step : Nat → Step} {read : Value → Except Error α}
    {readAll : Nat → List Value → Except Error (List α)}
    (checked : ∀ index value, (roleOf (step index)).check value = (read value).map fun _ => ())
    (nil : ∀ index, readAll index [] = .ok [])
    (cons : ∀ index value values, readAll index (value :: values) =
      within (step index) (read value) >>= fun found =>
        readAll (index + 1) values >>= fun others => pure (found :: others))
    (index : Nat) (values : List Value) :
    Parted (Among step index values) (readAll index values) := by
  induction values generalizing index with
  | nil =>
      rw [nil]
      rintro here part ⟨position, -, found⟩
      cases found
  | cons value values ih =>
      rw [cons]
      exact ((Parted.within (checked index value)).bind fun _ => (ih (index + 1)).map _).congr
        fun _ _ => among_cons

theorem readNodes_parted (values : List Value) :
    Parted (Among .child 0 values) (readNodes 0 values) :=
  parted_among (fun _ _ => rfl) (fun _ => by rw [readNodes]) (fun _ _ _ => by rw [readNodes]) 0
    values

theorem readPropList_parted (values : List Value) :
    Parted (Among .prop 0 values) (readPropList 0 values) :=
  parted_among (fun _ _ => rfl) (fun _ => by rw [readPropList])
    (fun _ _ _ => by rw [readPropList]) 0 values

theorem readModifierList_parted (values : List Value) :
    Parted (Among .modifier 0 values) (readModifierList 0 values) :=
  parted_among (fun _ _ => rfl) (fun _ => by rw [readModifierList])
    (fun _ _ _ => by rw [readModifierList]) 0 values

/-- The parts of an object in the array at a key. -/
def Items (members : Members) (key : String) (step : Nat → Step) (here : Step) (part : Value) :
    Prop :=
  ∃ position, here = step position ∧ Value.item? (.object members) key position = some part

theorem items_iff_among {members : Members} {key : String} {step : Nat → Step} {here : Step}
    {part : Value} {values : List Value} (found : members.get? key = some (.array values)) :
    Items members key step here part ↔ Among step 0 values here part := by
  simp [Items, Among, Value.item?, Value.field?, found]

theorem not_items {members : Members} {key : String} {step : Nat → Step} {here : Step}
    {part : Value} (absent : ∀ values, members.get? key ≠ some (.array values)) :
    ¬ Items members key step here part := by
  rintro ⟨position, -, found⟩
  rw [Value.item?] at found
  split at found
  next values isArray => exact absent values isArray
  next => cases found

theorem readChildren_parted (members : Members) :
    Parted (Items members "children" .child) (readChildren members) := by
  rw [readChildren]
  split
  next found => exact fun _ _ isItem => absurd isItem (not_items (by simp [found]))
  next values found => exact (readNodes_parted values).congr fun _ _ => items_iff_among found
  next found => exact .inl rfl

theorem readProps_parted (members : Members) :
    Parted (Items members "props" .prop) (readProps members) := by
  rw [readProps]
  split
  next found => exact fun _ _ isItem => absurd isItem (not_items (by simp [found]))
  next values found => exact (readPropList_parted values).congr fun _ _ => items_iff_among found
  next found => exact .inl rfl

theorem readModifiers_parted (members : Members) :
    Parted (Items members "modifiers" .modifier) (readModifiers members) := by
  unfold readModifiers
  split
  next found => exact fun _ _ isItem => absurd isItem (not_items (by simp [found]))
  next found => exact fun _ _ isItem => absurd isItem (not_items (by simp [found]))
  next values found =>
    exact (readModifierList_parted values).congr fun _ _ => items_iff_among found
  next found => exact .inl rfl

/-- The part of an object at a key, where `null` stands for none. -/
def Present (members : Members) (key : String) (step here : Step) (part : Value) : Prop :=
  here = step ∧ members.get? key = some part ∧ part ≠ .null

theorem readOptional_parted (members : Members) (key : String) {step : Step}
    (isNode : roleOf step = .node) :
    Parted (Present members key step) (readOptional members key step) := by
  rw [readOptional]
  split
  next absent => simp [Parted, Present, absent]
  next absent => simp [Parted, Present, absent]
  next value proper found =>
    have single : Parted (fun here part => here = step ∧ part = value)
        (within step (readNode value)) := .within (by rw [isNode]; rfl)
    refine (single.map some).congr fun here part => ?_
    rw [Present, found, Option.some.injEq]
    constructor
    · rintro ⟨isStep, rfl, -⟩
      exact ⟨isStep, rfl⟩
    · rintro ⟨isStep, rfl⟩
      exact ⟨isStep, rfl, proper⟩

theorem readContent_parted (members : Members) :
    Parted (fun here part => here = .content ∧ members.get? "content" = some part)
      (readContent members) := by
  rw [readContent]
  split
  next absent => exact .inl rfl
  next value found =>
    have single : Parted (fun here part => here = .content ∧ part = value)
        (within .content (readNode value)) := .within rfl
    exact single.congr fun here part => by simp [found, eq_comm]

theorem readAttribute_parted (members : Members) :
    Parted (Present members "value" .value) (readAttribute members) := by
  have value := @readOptional_parted members "value" .value rfl
  rw [readAttribute]
  exact ((requireText_parted members "name").bind fun _ => value.map _).congr fun _ _ => by simp

theorem readDirective_parted (members : Members) :
    Parted (fun here part => Items members "modifiers" .modifier here part ∨
        Present members "arg" .arg here part ∨ Present members "exp" .exp here part)
      (readDirective members) := by
  have modifiers := readModifiers_parted members
  have name := requireText_parted members "name"
  have arg := @readOptional_parted members "arg" .arg rfl
  have exp := @readOptional_parted members "exp" .exp rfl
  rw [readDirective]
  exact (modifiers.bind fun _ => name.bind fun _ => arg.bind fun _ => exp.map _).congr
    fun _ _ => by simp

/-! ## Objects -/

/-- The parts of an object of a kind. -/
def IsPart (members : Members) (kind : Kind) (step : Step) (part : Value) : Prop :=
  (kind.holds step = true ∨ kind = .directive ∧ roleOf step = .modifier) ∧
    (Value.object members).part? step = some part ∧ (step.isOptional = true → part ≠ .null)

theorem isPart_root {members : Members} {step : Step} {part : Value} :
    IsPart members .root step part ↔ Items members "children" .child step part := by
  cases step <;> simp [IsPart, Kind.holds, Items, Value.part?, Step.isOptional]

theorem isPart_attribute {members : Members} {step : Step} {part : Value} :
    IsPart members .attribute step part ↔ Present members "value" .value step part := by
  cases step <;> simp [IsPart, Kind.holds, Present, Value.part?, Value.field?, Step.isOptional]

theorem isPart_directive {members : Members} {step : Step} {part : Value} :
    IsPart members .directive step part ↔ Items members "modifiers" .modifier step part ∨
      Present members "arg" .arg step part ∨ Present members "exp" .exp step part := by
  cases step <;> simp [IsPart, Kind.holds, Items, Present, Value.part?, Value.field?,
    Step.isOptional, roleOf]

/-- An object of a known kind is read part by part. -/
theorem readNode_parted {members : Members} {kind : Kind} (known : kindOf members = .ok kind) :
    Parted (IsPart members kind) (readNode (.object members)) := by
  have children := readChildren_parted members
  have text (key : String) := requireText_parted members key
  rw [readNode, known, ok_bind]
  match kind with
  | .root =>
      exact ((readRootAttrs_parted members).bind fun _ => children.map _).congr fun _ _ => by
        simp [isPart_root]
  | .element =>
      have props := readProps_parted members
      refine ((text "tag").bind fun _ => props.bind fun _ => children.map _).congr
        fun step part => ?_
      cases step <;> simp [IsPart, Kind.holds, Items, Value.part?, Step.isOptional]
  | .text =>
      refine ((text "content").map _).congr fun step part => ?_
      cases step <;> simp [IsPart, Kind.holds]
  | .comment =>
      refine ((text "content").map _).congr fun step part => ?_
      cases step <;> simp [IsPart, Kind.holds]
  | .expression =>
      refine ((text "content").map _).congr fun step part => ?_
      cases step <;> simp [IsPart, Kind.holds]
  | .interpolation =>
      refine ((readContent_parted members).map _).congr fun step part => ?_
      cases step <;> simp [IsPart, Kind.holds, Value.part?, Value.field?, Step.isOptional]
  | .attribute => exact ((readAttribute_parted members).map _).congr fun _ _ => isPart_attribute
  | .directive => exact ((readDirective_parted members).map _).congr fun _ _ => isPart_directive

/-- The same holds where a property is asked for; other kinds are refused. -/
theorem readProp_parted {members : Members} {kind : Kind} (known : kindOf members = .ok kind) :
    Parted (IsPart members kind) (readProp (.object members)) := by
  rw [readProp, known, ok_bind]
  match kind with
  | .attribute => exact (readAttribute_parted members).congr fun _ _ => isPart_attribute
  | .directive => exact (readDirective_parted members).congr fun _ _ => isPart_directive
  | .root | .element | .text | .comment | .expression | .interpolation => exact .inl rfl

end SingleFile.Compiler
