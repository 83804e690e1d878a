import SingleFile.Command
import SingleFile.Proofs.Compiler.Parts

/-!
# Where compiler output is refused

An error of reading carries a path into the output. Following it leads to the value
that is refused, and that value is refused by itself for the same reason, unless only
its place makes it wrong: it stands for a node but not for a property, or is no modifier.

In the other direction, a value that cannot stand for a node or property where one is
expected makes the whole output refused, however deep it stands, also where printing would
not come to it.

Main statements: `error_path_resolves` and `refused_of_misfit`.
-/

namespace SingleFile.Markup.Kind

theorem tag_le (kind : Kind) : kind.tag ≤ 7 := by cases kind <;> decide

theorem ofTag?_eq_some_iff {tag : Nat} {kind : Kind} : ofTag? tag = some kind ↔ tag = kind.tag := by
  constructor
  · intro known
    unfold ofTag? at known
    split at known <;> cases known <;> rfl
  · rintro rfl
    cases kind <;> rfl

theorem lt_of_ofTag?_eq_none {tag : Nat} (unknown : ofTag? tag = none) : 7 < tag := by
  have every : ∀ number, number < 8 → ofTag? number ≠ none := by decide
  exact Nat.lt_of_not_le fun small => every tag (Nat.lt_succ_of_le small) unknown

end SingleFile.Markup.Kind

namespace SingleFile.Compiler

open SingleFile.Markup SingleFile.Json

/-! ## Kinds -/

/-- An object whose type is known has the kind with that number. -/
theorem kindOf_eq_ok_iff {members : Members} {kind : Kind} :
    kindOf members = .ok kind ↔ (Value.object members).type? = some kind.tag := by
  simp only [kindOf, Value.type?, Value.field?]
  cases members.get? "type" with
  | none => simp
  | some type =>
      cases type with
      | number written =>
          cases natural : written.toNat? with
          | none => simp [kindOfType, natural]
          | some tag =>
              simp only [kindOfType, natural, Option.some.injEq, ← Kind.ofTag?_eq_some_iff]
              cases Kind.ofTag? tag <;> simp
      | _ => simp [kindOfType]

/-- An object without a known kind has no type, or one that is no number of a kind. -/
theorem kindOf_eq_error {members : Members} {error : Error}
    (failed : kindOf members = .error error) :
    error = .malformed .noType [] ∨
      ∃ shown type, error = .unknownKind shown [] ∧ members.get? "type" = some type ∧
        ∀ number, (Value.object members).type? = some number → 7 < number := by
  simp only [kindOf] at failed
  simp only [Value.type?, Value.field?]
  cases found : members.get? "type" with
  | none =>
      rw [found] at failed
      cases failed
      exact .inl rfl
  | some type =>
      rw [found] at failed
      right
      cases type with
      | number written =>
          simp only [kindOfType] at failed
          cases natural : written.toNat? with
          | none =>
              rw [natural] at failed
              cases failed
              exact ⟨_, _, rfl, rfl, by simp [natural]⟩
          | some tag =>
              rw [natural] at failed
              cases known : Kind.ofTag? tag with
              | some kind => simp [known] at failed
              | none =>
                  simp only [known] at failed
                  cases failed
                  refine ⟨_, _, rfl, rfl, ?_⟩
                  intro number equal
                  simp only [natural, Option.some.injEq] at equal
                  subst equal
                  exact Kind.lt_of_ofTag?_eq_none known
      | _ =>
          cases failed
          exact ⟨_, _, rfl, rfl, by simp⟩

/-! ## One step of an error's path -/

namespace Error

/-- The path that an error carries. -/
def path? : Error → Option TreePath
  | .unknownKind _ path | .malformed _ path => some path
  | .notJson | .misshapen | .unreadableTag => none

/-- The same error about the value itself. -/
def here : Error → Error
  | .unknownKind kind _ => .unknownKind kind []
  | .malformed complaint _ => .malformed complaint []
  | other => other

@[simp] theorem path?_under (step : Step) (error : Error) :
    (error.under step).path? = error.path?.map (step :: ·) := by
  cases error <;> rfl

@[simp] theorem here_under (step : Step) (error : Error) :
    (error.under step).here = error.here := by
  cases error <;> rfl

theorem here_of_path? {error : Error} (atRoot : error.path? = some []) : error.here = error := by
  cases error <;> cases atRoot <;> rfl

theorem IsLocal.path?_ne {error : Error} (isLocal : error.IsLocal) (step : Step)
    (path : TreePath) : error.path? ≠ some (step :: path) := by
  cases error with
  | malformed complaint path =>
      cases isLocal
      simp [path?]
  | unreadableTag => simp [path?]
  | _ => exact isLocal.elim

end Error

/-- What is refused as a modifier is no text and holds none. -/
theorem readModifier_eq_error {value : Value} {error : Error}
    (refused : readModifier value = .error error) :
    error.IsLocal ∧ (∀ text, value ≠ .string text) ∧
      ∀ text, value.field? "content" ≠ some (.string text) := by
  cases value with
  | string text => cases refused
  | object members =>
      simp only [readModifier, requireText, Members.text?] at refused
      split at refused
      next => cases refused
      next absent =>
        cases refused
        refine ⟨rfl, by simp, ?_⟩
        intro text found
        have held : Members.get? members "content" = some (.string text) := found
        simp [held] at absent
  | _ =>
      cases refused
      exact ⟨rfl, by simp, by simp [Value.field?]⟩

namespace Role

/-- Only objects have parts, so that any other value is refused as it stands. -/
theorem isLocal_of_check {role : Role} {value : Value} {error : Error}
    (refused : role.check value = .error error) (plain : ∀ members, value ≠ .object members) :
    error.IsLocal := by
  cases value with
  | object members => exact absurd rfl (plain members)
  | _ =>
      cases role <;> simp [check, readNode, readProp, readModifier, Except.map] at refused <;>
        (subst refused; rfl)

/-- A value is refused for a reason of its own, because it is an object of no known kind, or
because one of its parts is refused. -/
theorem check_cases {role : Role} {value : Value} {error : Error}
    (refused : role.check value = .error error) :
    error.IsLocal ∨ (∃ members, value = .object members ∧ kindOf members = .error error) ∨
      ∃ step part inner, value.part? step = some part ∧
        (roleOf step).check part = .error inner ∧ error = inner.under step := by
  have ofObject {members : Members} {α : Type} {read : Except Error α}
      (unknown : ∀ failure, kindOf members = .error failure → read = .error failure)
      (parted : ∀ kind, kindOf members = .ok kind → Parted (IsPart members kind) read)
      (failed : read = .error error) :
      error.IsLocal ∨ kindOf members = .error error ∨
        ∃ step part inner, (Value.object members).part? step = some part ∧
          (roleOf step).check part = .error inner ∧ error = inner.under step := by
    cases known : kindOf members with
    | error failure =>
        cases failed.symm.trans (unknown failure known)
        exact .inr (.inl rfl)
    | ok kind =>
        have whole := parted kind known
        rw [failed] at whole
        rcases whole with isLocal | ⟨step, part, inner, ⟨-, found, -⟩, rest⟩
        · exact .inl isLocal
        · exact .inr (.inr ⟨step, part, inner, found, rest⟩)
  cases value with
  | object members =>
      cases role with
      | node =>
          have reasons := ofObject (fun failure failed => by rw [readNode, failed]; rfl)
            (fun kind known => readNode_parted known) (map_eq_error_iff.1 refused)
          simpa using reasons
      | prop =>
          have reasons := ofObject (fun failure failed => by rw [readProp, failed]; rfl)
            (fun kind known => readProp_parted known) (map_eq_error_iff.1 refused)
          simpa using reasons
      | modifier => exact .inl (readModifier_eq_error (map_eq_error_iff.1 refused)).1
  | _ => exact .inl (isLocal_of_check refused (by simp))

/-- An error with a longer path is that of the part at the first step. -/
theorem exists_part_of_check {role : Role} {value : Value} {error : Error} {step : Step}
    {path : TreePath} (refused : role.check value = .error error)
    (deep : error.path? = some (step :: path)) :
    ∃ part inner, value.part? step = some part ∧ (roleOf step).check part = .error inner ∧
      inner.path? = some path ∧ inner.here = error.here := by
  rcases check_cases refused with isLocal | ⟨members, -, unknown⟩ |
    ⟨other, part, inner, found, wrong, rfl⟩
  · exact absurd deep (isLocal.path?_ne step path)
  · rcases kindOf_eq_error unknown with rfl | ⟨_, _, rfl, -⟩ <;> cases deep
  · rw [Error.path?_under, Option.map_eq_some_iff] at deep
    rcases deep with ⟨rest, carried, equal⟩
    cases equal
    exact ⟨part, inner, found, wrong, carried, (Error.here_under step inner).symm⟩

/-- Only an object of no known kind is itself refused for its kind. -/
theorem kindOf_of_unknownKind {role : Role} {value : Value} {shown : String}
    (refused : role.check value = .error (.unknownKind shown [])) :
    ∃ members, value = .object members ∧ kindOf members = .error (.unknownKind shown []) := by
  rcases check_cases refused with isLocal | unknown | ⟨step, _, inner, -, -, equal⟩
  · exact isLocal.elim
  · exact unknown
  · have deep := congrArg Error.path? equal
    cases inner <;> cases deep

end Role

/-! ## Paths lead to what is refused -/

/-- What the value at a path is read as. -/
def roleAt (role : Role) (path : TreePath) : Role := (path.getLast?.map roleOf).getD role

theorem roleAt_cons (role : Role) (step : Step) (path : TreePath) :
    roleAt role (step :: path) = roleAt (roleOf step) path := by
  cases path with
  | nil => rfl
  | cons next path =>
      rw [roleAt, roleAt, List.getLast?_cons_cons, List.getLast?_cons]
      rfl

/-- The path of an error leads to a value that is refused by itself. -/
theorem Role.exists_of_check {role : Role} {value : Value} {error : Error} {path : TreePath}
    (refused : role.check value = .error error) (carried : error.path? = some path) :
    ∃ part, value.at? path = some part ∧ (roleAt role path).check part = .error error.here := by
  -- Each step of the path is one part deeper, so the induction is on the path.
  induction path generalizing role value error with
  | nil =>
      refine ⟨value, rfl, ?_⟩
      rw [Error.here_of_path? carried]
      exact refused
  | cons step path ih =>
      rcases exists_part_of_check refused carried with ⟨part, inner, found, within, rest, same⟩
      rcases ih within rest with ⟨target, leads, wrong⟩
      refine ⟨target, ?_, ?_⟩
      · rw [Value.at?, found]
        exact leads
      · rw [roleAt_cons, ← same]
        exact wrong

/-- A path whose last step leads to something that is read for another role. -/
theorem eq_append_of_roleAt {path : TreePath} {role : Role} (special : roleAt .node path = role)
    (proper : role ≠ .node) : ∃ front step, path = front ++ [step] ∧ roleOf step = role := by
  cases last : path.getLast? with
  | none => simp [roleAt, last, Ne.symm proper] at special
  | some step =>
      rcases List.getLast?_eq_some_iff.1 last with ⟨front, rfl⟩
      exact ⟨front, step, rfl, by simpa [roleAt] using special⟩

/-- A property is read alike as a node. -/
theorem readNode_of_property {members : Members} {kind : Kind}
    (known : kindOf members = .ok kind) (isProperty : 5 < kind.tag) :
    readNode (.object members) = (readProp (.object members)).map .property := by
  rw [readNode, readProp, known, ok_bind, ok_bind]
  match kind with
  | .attribute | .directive => rfl
  | .root | .element | .text | .comment | .expression | .interpolation =>
      exact absurd isProperty (by decide)

/-- A property is refused for the reasons for which it is refused as a node, or because it is
a node of another kind. -/
theorem readProp_eq_error {value : Value} {error : Error}
    (refused : readProp value = .error error) :
    readNode value = .error error ∨ ∃ number, value.type? = some number ∧ number ≤ 5 := by
  cases value with
  | object members =>
      cases known : kindOf members with
      | error failure =>
          left
          rw [readProp, known] at refused
          rw [readNode, known]
          cases refused
          rfl
      | ok kind =>
          rcases Nat.lt_or_ge 5 kind.tag with isProperty | other
          · left
            rw [readNode_of_property known isProperty, refused]
            rfl
          · exact .inr ⟨kind.tag, kindOf_eq_ok_iff.1 known, other⟩
  | _ =>
      left
      simp [readProp] at refused
      simp [readNode, refused]

/-- The path of an error leads to the value that is refused. -/
theorem error_path_resolves (value : Value) :
    (∀ shown path, readNode value = .error (.unknownKind shown path) →
      ∃ members type, value.at? path = some (.object members) ∧
        Members.get? members "type" = some type ∧
        (∀ number, (Value.object members).type? = some number → 7 < number) ∧
        readNode (.object members) = .error (.unknownKind shown [])) ∧
    ∀ complaint path, readNode value = .error (.malformed complaint path) →
      ∃ part, value.at? path = some part ∧
        ((∃ front index, path = front ++ [.modifier index] ∧ (∀ text, part ≠ .string text) ∧
            ∀ text, part.field? "content" ≠ some (.string text)) ∨
          (∃ front index, path = front ++ [.prop index] ∧
            ∃ number, part.type? = some number ∧ number ≤ 5) ∨
          readNode part = .error (.malformed complaint [])) := by
  constructor
  · intro shown path failed
    have refused : Role.node.check value = .error (.unknownKind shown path) :=
      map_eq_error_iff.2 failed
    rcases Role.exists_of_check refused rfl with ⟨part, leads, wrong⟩
    rcases Role.kindOf_of_unknownKind wrong with ⟨members, rfl, unknown⟩
    rcases kindOf_eq_error unknown with other | ⟨_, type, -, found, large⟩
    · cases other
    · refine ⟨members, type, leads, found, large, ?_⟩
      rw [readNode, unknown]
      rfl
  · intro complaint path failed
    have refused : Role.node.check value = .error (.malformed complaint path) :=
      map_eq_error_iff.2 failed
    rcases Role.exists_of_check refused rfl with ⟨part, leads, wrong⟩
    refine ⟨part, leads, ?_⟩
    cases role : roleAt .node path with
    | node =>
        rw [role] at wrong
        exact .inr (.inr (map_eq_error_iff.1 wrong))
    | prop =>
        rw [role] at wrong
        rcases readProp_eq_error (map_eq_error_iff.1 wrong) with same | other
        · exact .inr (.inr same)
        · rcases eq_append_of_roleAt role (by simp) with ⟨front, step, shape, isProp⟩
          cases step with
          | prop index => exact .inr (.inl ⟨front, index, shape, other⟩)
          | _ => cases isProp
    | modifier =>
        rw [role] at wrong
        rcases eq_append_of_roleAt role (by simp) with ⟨front, step, shape, isModifier⟩
        cases step with
        | modifier index =>
            have absent := (readModifier_eq_error (map_eq_error_iff.1 wrong)).2
            exact .inl ⟨front, index, shape, absent⟩
        | _ => cases isModifier

theorem error_path_resolves_sample :
    let foreign : Value := .object [("type", .number (.integer 8))]
    let output : Value := .object [("type", typeOf .root), ("children",
      .array [.object [("type", typeOf .interpolation), ("content", foreign)]])]
    let broken : Value := .object [("type", typeOf .element), ("tag", .string "p"), ("props",
      .array [.object [("type", typeOf .directive), ("name", .string "on"),
        ("modifiers", .array [.string "stop", .null])]])]
    (readNode output = .error (.unknownKind "8 (COMPOUND_EXPRESSION)" [.child 0, .content]) ∧
      output.at? [.child 0, .content] = some foreign ∧
      readNode foreign = .error (.unknownKind "8 (COMPOUND_EXPRESSION)" [])) ∧
    readNode broken = .error (.malformed .notAModifier [.prop 0, .modifier 1]) ∧
      broken.at? [.prop 0, .modifier 1] = some .null := by
  intro foreign output broken
  have unknown : readNode output =
      .error (.unknownKind "8 (COMPOUND_EXPRESSION)" [.child 0, .content]) := by
    with_unfolding_all rfl
  have malformed : readNode broken =
      .error (.malformed .notAModifier [.prop 0, .modifier 1]) := by
    with_unfolding_all rfl
  rcases (error_path_resolves output).1 _ _ unknown with ⟨members, type, leads, -, -, again⟩
  rcases (error_path_resolves broken).2 _ _ malformed with ⟨part, resolved, -⟩
  have isForeign : some foreign = some (.object members) := leads
  have isNull : some Value.null = some part := resolved
  cases isNull
  rw [← Option.some.inj isForeign] at again leads
  exact ⟨⟨unknown, leads, again⟩, malformed, resolved⟩

/-! ## Misfits at any depth -/

/-- A step from an object leads to a value that has to stand for a node or property. -/
def Position (value : Value) (step : Step) (part : Value) : Prop :=
  ∃ kind : Kind, value.type? = some kind.tag ∧ kind.holds step = true ∧
    value.part? step = some part ∧ (step.isOptional = true → part ≠ .null)

/-- A path leads through such positions only. -/
inductive Reaches : Value → TreePath → Value → Prop where
  | here {value : Value} : Reaches value [] value
  | part {value part target : Value} {step : Step} {path : TreePath} :
      Position value step part → Reaches part path target → Reaches value (step :: path) target

/-- The type of a value allows it to be read for a role. -/
def Role.Fits (role : Role) (value : Value) : Prop :=
  match role with
  | .node => ∃ number, value.type? = some number ∧ number ≤ 7
  | .prop => value.type? = some 6 ∨ value.type? = some 7
  | .modifier => True

/-- A value that fits its role and of which all positions are accepted. -/
structure Opened (role : Role) (value : Value) : Prop where
  fits : role.Fits value
  parts : ∀ step part, Position value step part → (roleOf step).check part = .ok ()

theorem Position.isPart {members : Members} {kind : Kind} {step : Step} {part : Value}
    (known : kindOf members = .ok kind) (position : Position (.object members) step part) :
    IsPart members kind step part := by
  rcases position with ⟨other, type, holds, found, present⟩
  cases (kindOf_eq_ok_iff.2 type).symm.trans known
  exact ⟨.inl holds, found, present⟩

theorem Position.roleOf_ne {value part : Value} {step : Step}
    (position : Position value step part) : roleOf step ≠ .modifier := by
  rcases position with ⟨kind, -, holds, -⟩
  cases step with
  | modifier index => cases kind <;> cases holds
  | _ => simp [roleOf]

/-- What is accepted is an object of a known kind. -/
theorem Role.exists_kind_of_check {role : Role} (proper : role ≠ .modifier) {value : Value}
    (accepted : role.check value = .ok ()) :
    ∃ members kind, value = .object members ∧ kindOf members = .ok kind := by
  cases value with
  | object members =>
      cases known : kindOf members with
      | ok kind => exact ⟨members, kind, rfl, known⟩
      | error failure =>
          cases role with
          | node => simp [check, readNode, known, bind, Except.bind, Except.map] at accepted
          | prop => simp [check, readProp, known, bind, Except.bind, Except.map] at accepted
          | modifier => exact absurd rfl proper
  | _ =>
      cases role with
      | modifier => exact absurd rfl proper
      | _ => simp [check, readNode, readProp, Except.map] at accepted

theorem Role.fits_of_check {role : Role} {members : Members} {kind : Kind}
    (known : kindOf members = .ok kind) (accepted : role.check (.object members) = .ok ()) :
    role.Fits (.object members) := by
  have type := kindOf_eq_ok_iff.1 known
  cases role with
  | node => exact ⟨kind.tag, type, kind.tag_le⟩
  | prop =>
      rw [check, readProp, known, ok_bind] at accepted
      match kind with
      | .attribute => exact .inl type
      | .directive => exact .inr type
      | .root | .element | .text | .comment | .expression | .interpolation => cases accepted
  | modifier => trivial

/-- What is accepted for its role is opened. -/
theorem Role.opened_of_check {role : Role} (proper : role ≠ .modifier) {value : Value}
    (accepted : role.check value = .ok ()) : Opened role value := by
  rcases exists_kind_of_check proper accepted with ⟨members, kind, rfl, known⟩
  refine ⟨fits_of_check known accepted, fun step part position => ?_⟩
  have isPart := position.isPart known
  cases role with
  | node =>
      rcases map_unit_eq_ok_iff.1 accepted with ⟨node, read⟩
      have parted := readNode_parted known
      rw [read] at parted
      exact parted step part isPart
  | prop =>
      rcases map_unit_eq_ok_iff.1 accepted with ⟨property, read⟩
      have parted := readProp_parted known
      rw [read] at parted
      exact parted step part isPart
  | modifier => exact absurd rfl proper

/-- Whatever is reached from what is opened fits its role. -/
theorem Opened.fits_of_reaches {role : Role} {value part : Value} {path : TreePath}
    (opened : Opened role value) (reaches : Reaches value path part) :
    (roleAt role path).Fits part := by
  induction reaches generalizing role with
  | here => exact opened.fits
  | @part value part target step path position _ ih =>
      rw [roleAt_cons]
      exact ih (Role.opened_of_check position.roleOf_ne (opened.parts step part position))

/-- The tree of a template is opened when its content is read, although the attributes of a
root are not. -/
theorem opened_of_readForest {value : Value} {nodes : List Node}
    (read : readForest value = .ok nodes) : Opened .node value := by
  cases value with
  | object members =>
      cases known : kindOf members with
      | error failure =>
          rw [readForest, known] at read
          cases read
      | ok kind =>
          have fits : Role.node.Fits (.object members) :=
            ⟨kind.tag, kindOf_eq_ok_iff.1 known, kind.tag_le⟩
          rw [readForest, known, ok_bind] at read
          cases kind with
          | root =>
              have parted := readChildren_parted members
              rw [show readChildren members = .ok nodes from read] at parted
              exact ⟨fits, fun step part position =>
                parted step part (isPart_root.1 (position.isPart known))⟩
          | _ =>
              cases outcome : readNode (.object members) with
              | error failure =>
                  rw [outcome] at read
                  cases read
              | ok node =>
                  exact Role.opened_of_check (by simp) (map_unit_eq_ok_iff.2 ⟨node, outcome⟩)
  | _ => cases read

/-- A value that does not fit where a node or property is expected, at any depth, makes
reading the whole fail, and so does a component of whose template it is a part: nothing is
put out for it. -/
theorem refused_of_misfit {value part : Value} {path : TreePath}
    (reaches : Reaches value path part) (misfit : ¬ (roleAt .node path).Fits part) :
    (∃ error, readNode value = .error error) ∧
    ∀ source descriptor entry,
      Descriptor.ofValue? ((source.field? "descriptor").getD source) = some descriptor →
      descriptor.template = some entry → entry.ast = some value →
      ∃ error, readDocument source = .error error ∧
        ∀ file text, readValue text = .ok source →
          Command.assembleContent file text = ([], .error (.load file error)) := by
  have closed : ¬ Opened .node value := fun opened => misfit (opened.fits_of_reaches reaches)
  constructor
  · cases outcome : readNode value with
    | error error => exact ⟨error, rfl⟩
    | ok node =>
        have accepted : Role.node.check value = .ok () := map_unit_eq_ok_iff.2 ⟨node, outcome⟩
        exact absurd (Role.opened_of_check (by simp) accepted) closed
  · intro source descriptor entry accepted present tree
    have template : ∃ error, entry.toTemplate = .error error := by
      rw [TemplateEntry.toTemplate, tree]
      cases readAttrs entry.attrs with
      | error error => exact ⟨error, rfl⟩
      | ok attrs =>
          cases outcome : readForest value with
          | error error => exact ⟨error, by simp only [ok_bind, outcome]; rfl⟩
          | ok nodes => exact absurd (opened_of_readForest outcome) closed
    rcases template with ⟨error, failed⟩
    have refused : readDocument source = .error error := by
      rw [readDocument, accepted]
      simp only [Descriptor.toDocument, present, convertOption, failed]
      rfl
    refine ⟨error, refused, ?_⟩
    intro file text parsed
    rw [Command.assembleContent, readDocumentText, parsed, ok_bind, refused]

theorem refused_of_misfit_sample :
    let foreign : Value := .object [("type", .number (.integer 13))]
    let argument : Value := .object [("type", typeOf .element), ("tag", .string "i"),
      ("children", .array [foreign])]
    let output : Value := .object [("type", typeOf .element), ("isSelfClosing", .bool true),
      ("props", .array [.object [("type", typeOf .directive), ("arg", argument)]])]
    let source : Value :=
      .object [("descriptor", .object [("template", .object [("ast", output)])])]
    (Reaches output [.prop 0, .arg, .child 0] foreign ∧ ¬ Role.node.Fits foreign) ∧
      (∃ error, readNode output = .error error) ∧ ∃ error, readDocument source = .error error := by
  intro foreign argument output source
  have reaches : Reaches output [.prop 0, .arg, .child 0] foreign :=
    .part ⟨.element, rfl, rfl, rfl, by simp [Step.isOptional]⟩
      (.part ⟨.directive, rfl, rfl, rfl, by simp [argument]⟩
        (.part ⟨.element, rfl, rfl, rfl, by simp [Step.isOptional]⟩ .here))
  have misfit : ¬ Role.node.Fits foreign := by
    rintro ⟨number, type, small⟩
    cases type
    exact absurd small (by decide)
  rcases refused_of_misfit reaches misfit with ⟨refused, closed⟩
  rcases closed source _ _ rfl rfl rfl with ⟨error, failed, -⟩
  exact ⟨⟨reaches, misfit⟩, refused, error, failed⟩

end SingleFile.Compiler
