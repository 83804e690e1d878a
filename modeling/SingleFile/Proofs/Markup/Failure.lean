import SingleFile.Document.Printer

/-!
# Where printing fails

Printing goes through a tree in the order in which the text is written, and stops at
the first directive whose argument is no expression. `Node.Visits` says which nodes it
comes to on the way: arguments are written by their directive and not entered, and the
content of an element that closes itself is left out. The order is that of paths, step
by step: properties before children, and each of them by its index.

`Reports` states this of a result. It is proved for one way of putting results together
at a time, and the printers follow from these: a part is entered (`FirstOf.within`), or
one part is written after another (`FirstOf.bind`).

Main statement: `render_reports`.
-/

namespace SingleFile.Markup

/-! ## The parts of a tree -/

namespace Node

/-- The part of a node at a step. -/
def part? : Node → Step → Option Node
  | .root _ children, .child index => children[index]?
  | .element _ props _ _, .prop index => props[index]?.map .property
  | .element _ _ children _, .child index => children[index]?
  | .interpolation content, .content => some content
  | .property (.attribute _ value), .value => value
  | .property (.directive _ arg _ _), .arg => arg
  | .property (.directive _ _ _ exp), .exp => exp
  | _, _ => none

/-- The node that a path leads to, step by step. -/
def at? (node : Node) : TreePath → Option Node
  | [] => some node
  | step :: path => (node.part? step).bind (·.at? path)

/-- Whether printing a node enters the part at a step. -/
def enters : Node → Step → Bool
  | .element _ _ _ selfClosing, .child _ => !selfClosing
  | _, .arg => false
  | _, _ => true

/-- Printing comes from a node, by a path, to a node inside it. -/
inductive Visits : Node → TreePath → Node → Prop where
  | here {node : Node} : Visits node [] node
  | part {node part target : Node} {step : Step} {path : TreePath} :
      node.part? step = some part → node.enters step = true → Visits part path target →
      Visits node (step :: path) target

/-- Printing comes by a path to a directive whose argument is no expression. -/
def Offends (node : Node) (path : TreePath) (arg : Node) : Prop :=
  arg.kind ≠ .expression ∧
    ∃ name modifiers exp, node.Visits path (.property (.directive name (some arg) modifiers exp))

theorem at?_append (node : Node) (front back : TreePath) :
    node.at? (front ++ back) = (node.at? front).bind (·.at? back) := by
  induction front generalizing node with
  | nil => rfl
  | cons step front ih =>
      rw [List.cons_append, at?, at?]
      cases node.part? step with
      | none => rfl
      | some part => exact ih part

/-- What printing comes to is found at its path. -/
theorem Visits.at? {node target : Node} {path : TreePath} (visits : node.Visits path target) :
    node.at? path = some target := by
  induction visits with
  | here => rfl
  | part found _ _ ih => simpa [Node.at?, found] using ih

/-- A tree offends by itself, or by a part that is entered. -/
theorem offends_cons_iff {node arg : Node} {step : Step} {path : TreePath} :
    node.Offends (step :: path) arg ↔
      ∃ part, node.part? step = some part ∧ node.enters step = true ∧ part.Offends path arg := by
  constructor
  · rintro ⟨refused, name, modifiers, exp, visits⟩
    cases visits with
    | part found entered visits => exact ⟨_, found, entered, refused, name, modifiers, exp, visits⟩
  · rintro ⟨part, found, entered, refused, name, modifiers, exp, visits⟩
    exact ⟨refused, name, modifiers, exp, .part found entered visits⟩

theorem offends_nil_iff {node arg : Node} :
    node.Offends [] arg ↔ arg.kind ≠ .expression ∧
      ∃ name modifiers exp, node = .property (.directive name (some arg) modifiers exp) := by
  constructor
  · rintro ⟨refused, name, modifiers, exp, ⟨⟩⟩
    exact ⟨refused, name, modifiers, exp, rfl⟩
  · rintro ⟨refused, name, modifiers, exp, rfl⟩
    exact ⟨refused, name, modifiers, exp, .here⟩

end Node

/-! ## The order of printing -/

/-- One part of a node is written before another. -/
inductive Step.Before : Step → Step → Prop where
  | props {index other : Nat} : index < other → Before (.prop index) (.prop other)
  | propChild (index other : Nat) : Before (.prop index) (.child other)
  | children {index other : Nat} : index < other → Before (.child index) (.child other)

/-- Printing comes to one path before another. A node comes before its parts. -/
def TreePath.Before (path other : TreePath) : Prop := List.Lex Step.Before path other

/-- A result of printing is a failure exactly when there are offences, and then names the
first of them. -/
def FirstOf (offends : TreePath → Node → Prop) : Except ArgumentError α → Prop
  | .ok _ => ∀ path arg, ¬ offends path arg
  | .error error => ∃ path arg, offends path arg ∧ error = ⟨arg.kind, path ++ [.arg]⟩ ∧
      ∀ other otherArg, offends other otherArg → other = path ∨ path.Before other

namespace FirstOf

variable {offends first second : TreePath → Node → Prop}

theorem congr {result : Except ArgumentError α} (reported : FirstOf first result)
    (same : ∀ path arg, offends path arg ↔ first path arg) : FirstOf offends result := by
  have equal : offends = first := funext fun path => funext fun arg => propext (same path arg)
  rwa [equal]

/-- What is entered by a step has its offences behind that step. -/
theorem within {result : Except ArgumentError String} (reported : FirstOf first result)
    (step : Step) :
    FirstOf (fun path arg => ∃ inner, path = step :: inner ∧ first inner arg)
      (within step result) := by
  cases result with
  | ok text =>
      rintro _ arg ⟨inner, -, offence⟩
      exact reported inner arg offence
  | error error =>
      rcases reported with ⟨path, arg, offence, rfl, least⟩
      refine ⟨step :: path, arg, ⟨path, rfl, offence⟩, rfl, ?_⟩
      rintro _ otherArg ⟨inner, rfl, otherOffence⟩
      rcases least inner otherArg otherOffence with rfl | before
      · exact .inl rfl
      · exact .inr (.cons before)

/-- Of two parts, the second is looked at only when the first has no offence. -/
theorem bind {result : Except ArgumentError α} {next : α → Except ArgumentError β}
    (reported : FirstOf first result) (later : ∀ text, FirstOf second (next text))
    (ordered : ∀ path arg other otherArg, first path arg → second other otherArg →
      path.Before other) :
    FirstOf (fun path arg => first path arg ∨ second path arg) (result >>= next) := by
  cases result with
  | ok text =>
      refine (later text).congr fun path arg => ?_
      simp [reported path arg]
  | error error =>
      rcases reported with ⟨path, arg, offence, rfl, least⟩
      refine ⟨path, arg, .inl offence, rfl, ?_⟩
      rintro other otherArg (otherOffence | otherOffence)
      · exact least other otherArg otherOffence
      · exact .inr (ordered path arg other otherArg offence otherOffence)

theorem map {result : Except ArgumentError α} (reported : FirstOf first result) (write : α → β) :
    FirstOf first (result >>= fun text => pure (write text)) := by
  cases result with
  | ok text => exact reported
  | error error => exact reported

end FirstOf

/-! ## The offences of a node -/

/-- The offences of items that stand one after the other, the first at `index`. -/
def OffendsAmong (step : Nat → Step) (offends : α → TreePath → Node → Prop) (index : Nat)
    (items : List α) (path : TreePath) (arg : Node) : Prop :=
  ∃ position item inner, items[position]? = some item ∧
    path = step (index + position) :: inner ∧ offends item inner arg

/-- The offences of a part that may be absent. -/
def OffendsIn (step : Step) (part : Option Node) (path : TreePath) (arg : Node) : Prop :=
  ∃ node inner, part = some node ∧ path = step :: inner ∧ node.Offends inner arg

theorem offendsAmong_cons {step : Nat → Step} {offends : α → TreePath → Node → Prop} {index : Nat}
    {item : α} {items : List α} {path : TreePath} {arg : Node} :
    OffendsAmong step offends index (item :: items) path arg ↔
      (∃ inner, path = step index :: inner ∧ offends item inner arg) ∨
        OffendsAmong step offends (index + 1) items path arg := by
  constructor
  · rintro ⟨position, found, inner, isItem, rfl, offence⟩
    cases position with
    | zero =>
        cases isItem
        exact .inl ⟨inner, rfl, offence⟩
    | succ position =>
        refine .inr ⟨position, found, inner, isItem, ?_, offence⟩
        rw [Nat.add_right_comm, Nat.add_assoc]
  · rintro (⟨inner, rfl, offence⟩ | ⟨position, found, inner, isItem, rfl, offence⟩)
    · exact ⟨0, item, inner, rfl, rfl, offence⟩
    · refine ⟨position + 1, found, inner, isItem, ?_, offence⟩
      rw [Nat.add_right_comm, Nat.add_assoc]

theorem offendsAmong_zero {step : Nat → Step} {offends : α → TreePath → Node → Prop}
    {items : List α} {here : Step} {inner : TreePath} {arg : Node} :
    OffendsAmong step offends 0 items (here :: inner) arg ↔
      ∃ position, here = step position ∧
        ∃ item, items[position]? = some item ∧ offends item inner arg := by
  constructor
  · rintro ⟨position, item, _, found, equal, offence⟩
    rw [List.cons.injEq, Nat.zero_add] at equal
    rcases equal with ⟨rfl, rfl⟩
    exact ⟨position, rfl, item, found, offence⟩
  · rintro ⟨position, rfl, item, found, offence⟩
    exact ⟨position, item, inner, found, by rw [Nat.zero_add], offence⟩

/-- An item's offences come before those of the items after it. -/
theorem before_of_offendsAmong {step : Nat → Step}
    (ordered : ∀ {index other : Nat}, index < other → (step index).Before (step other))
    {offends : α → TreePath → Node → Prop} {index : Nat} {items : List α} {path : TreePath}
    {arg : Node} (later : OffendsAmong step offends (index + 1) items path arg)
    (inner : TreePath) : TreePath.Before (step index :: inner) path := by
  rcases later with ⟨position, item, rest, -, rfl, -⟩
  exact .rel (ordered (by omega))

namespace Node

variable {path : TreePath} {arg : Node}

theorem offends_root {attrs : List Attr} {children : List Node} :
    (Node.root attrs children).Offends path arg ↔
      OffendsAmong .child Offends 0 children path arg := by
  cases path with
  | nil => simp [offends_nil_iff, OffendsAmong]
  | cons step path =>
      rw [offends_cons_iff, offendsAmong_zero]
      cases step <;> simp [part?, enters]

theorem offends_element {tag : String} {props : List Property} {children : List Node}
    {selfClosing : Bool} :
    (Node.element tag props children selfClosing).Offends path arg ↔
      OffendsAmong .prop (fun property => (Node.property property).Offends) 0 props path arg ∨
        selfClosing = false ∧ OffendsAmong .child Offends 0 children path arg := by
  cases path with
  | nil => simp [offends_nil_iff, OffendsAmong]
  | cons step path =>
      rw [offends_cons_iff, offendsAmong_zero, offendsAmong_zero]
      cases step with
      | prop index => cases found : props[index]? <;> simp [part?, enters, found]
      | child index => cases selfClosing <;> simp [part?, enters]
      | _ => simp [part?]

theorem offends_interpolation {content : Node} :
    (Node.interpolation content).Offends path arg ↔
      ∃ inner, path = .content :: inner ∧ content.Offends inner arg := by
  cases path with
  | nil => simp [offends_nil_iff]
  | cons step path =>
      rw [offends_cons_iff]
      cases step <;> simp [part?, enters]

theorem offends_attribute {name : String} {value : Option Node} :
    (Node.property (.attribute name value)).Offends path arg ↔
      OffendsIn .value value path arg := by
  cases path with
  | nil => simp [offends_nil_iff, OffendsIn]
  | cons step path =>
      rw [offends_cons_iff]
      cases step <;> simp [part?, enters, OffendsIn]

theorem offends_directive {name : String} {directiveArg : Option Node} {modifiers : List String}
    {exp : Option Node} :
    (Node.property (.directive name directiveArg modifiers exp)).Offends path arg ↔
      (path = [] ∧ directiveArg = some arg ∧ arg.kind ≠ .expression) ∨
        OffendsIn .exp exp path arg := by
  cases path with
  | nil => simp [offends_nil_iff, OffendsIn, and_comm]
  | cons step path =>
      rw [offends_cons_iff]
      cases step <;> simp [part?, enters, OffendsIn]

/-- Only a directive offends by itself, so a node without parts does not offend. -/
theorem not_offends {node : Node} (bare : ∀ step, node.part? step = none)
    (other : ∀ property, node ≠ .property property) : ¬ node.Offends path arg := by
  cases path with
  | nil =>
      rw [offends_nil_iff]
      rintro ⟨-, name, modifiers, exp, equal⟩
      exact other _ equal
  | cons step path => simp [offends_cons_iff, bare]

end Node

/-! ## The printers -/

/-- Writing an argument fails when it is no expression. -/
theorem renderArgument_firstOf (arg : Option Node) :
    FirstOf (fun path other => path = [] ∧ arg = some other ∧ other.kind ≠ .expression)
      (renderArgument arg) := by
  unfold renderArgument
  split
  next => simp [FirstOf]
  next =>
    rintro _ _ ⟨-, ⟨⟩, refused⟩
    exact refused rfl
  next =>
    rintro _ _ ⟨-, ⟨⟩, refused⟩
    exact refused rfl
  next other static dynamic =>
    have refused : other.kind ≠ .expression := by
      cases other with
      | expression content isStatic =>
          cases isStatic
          · exact (dynamic content rfl).elim
          · exact (static content rfl).elim
      | property property => cases property <;> simp [Node.kind, Property.kind]
      | _ => simp [Node.kind]
    refine ⟨[], other, ⟨rfl, rfl, refused⟩, rfl, ?_⟩
    rintro _ _ ⟨rfl, -⟩
    exact .inl rfl

mutual

/-- Printing a node reports its first offence. -/
theorem Node.render_firstOf : (node : Node) → FirstOf node.Offends node.render
  | .root attrs children => by
      rw [Node.render]
      exact ((renderChildren_firstOf 0 children).map _).congr fun _ _ => Node.offends_root
  | .element tag props children selfClosing => by
      have opening := renderProps_firstOf 0 props
      have content := renderChildren_firstOf 0 children
      have ordered : ∀ path arg other otherArg,
          OffendsAmong .prop (fun property => (Node.property property).Offends) 0 props path arg →
          OffendsAmong .child Node.Offends 0 children other otherArg → path.Before other := by
        rintro _ arg _ otherArg ⟨_, _, _, _, rfl, _⟩ ⟨_, _, _, _, rfl, _⟩
        exact .rel (.propChild _ _)
      rw [Node.render]
      cases selfClosing with
      | true => exact (opening.map _).congr fun _ _ => by simp [Node.offends_element]
      | false =>
          exact (opening.bind (fun _ => content.map _) ordered).congr fun _ _ => by
            simp [Node.offends_element]
  | .text content => by
      rw [Node.render]
      exact fun _ _ => Node.not_offends (fun step => by cases step <;> rfl) (by simp)
  | .comment content => by
      rw [Node.render]
      exact fun _ _ => Node.not_offends (fun step => by cases step <;> rfl) (by simp)
  | .expression content isStatic => by
      rw [Node.render]
      exact fun _ _ => Node.not_offends (fun step => by cases step <;> rfl) (by simp)
  | .interpolation content => by
      rw [Node.render]
      exact ((content.render_firstOf.within .content).map _).congr fun _ _ =>
        Node.offends_interpolation
  | .property property => by
      rw [Node.render]
      exact property.render_firstOf

theorem Property.render_firstOf : (property : Property) →
    FirstOf (Node.property property).Offends property.render
  | .attribute name value => by
      rw [Property.render]
      exact ((renderQuoted_firstOf .value value).map _).congr fun _ _ => Node.offends_attribute
  | .directive name arg modifiers exp => by
      have later := renderQuoted_firstOf .exp exp
      rw [Property.render]
      refine ((renderArgument_firstOf arg).bind (fun _ => later.map _) ?_).congr fun _ _ =>
        Node.offends_directive
      rintro _ _ _ _ ⟨rfl, -⟩ ⟨_, _, -, rfl, -⟩
      exact .nil

theorem renderQuoted_firstOf (step : Step) : (value : Option Node) →
    FirstOf (OffendsIn step value) (renderQuoted step value)
  | none => by simp [renderQuoted, FirstOf, OffendsIn]
  | some node => by
      rw [renderQuoted]
      refine ((node.render_firstOf.within step).map _).congr fun path arg => ?_
      simp [OffendsIn]

theorem renderChildren_firstOf (index : Nat) : (nodes : List Node) →
    FirstOf (OffendsAmong .child Node.Offends index nodes) (renderChildren index nodes)
  | [] => by simp [renderChildren, FirstOf, OffendsAmong]
  | node :: nodes => by
      have here := node.render_firstOf.within (.child index)
      have later := renderChildren_firstOf (index + 1) nodes
      rw [renderChildren]
      refine (here.bind (fun _ => later.map _) ?_).congr fun _ _ => offendsAmong_cons
      rintro _ _ _ _ ⟨inner, rfl, -⟩ follows
      exact before_of_offendsAmong .children follows inner

theorem renderProps_firstOf (index : Nat) : (props : List Property) →
    FirstOf (OffendsAmong .prop (fun property => (Node.property property).Offends) index props)
      (renderProps index props)
  | [] => by simp [renderProps, FirstOf, OffendsAmong]
  | property :: props => by
      have here := property.render_firstOf.within (.prop index)
      have later := renderProps_firstOf (index + 1) props
      rw [renderProps]
      refine (here.bind (fun _ => later.map _) ?_).congr fun _ _ => offendsAmong_cons
      rintro _ _ _ _ ⟨inner, rfl, -⟩ follows
      exact before_of_offendsAmong .props follows inner

end

/-! ## What is reported -/

theorem Step.Before.asymm {step other : Step} (before : step.Before other) :
    ¬ other.Before step := by
  rintro ⟨⟩ <;> cases before <;> omega

theorem TreePath.Before.asymm {path other : TreePath} (before : path.Before other) :
    ¬ other.Before path :=
  List.lex_asymm Step.Before.asymm before

namespace Node

/-- There is one argument at most at a path. -/
theorem Offends.arg_unique {node arg other : Node} {path : TreePath}
    (offends : node.Offends path arg) (also : node.Offends path other) : arg = other := by
  rcases offends with ⟨-, name, modifiers, exp, visits⟩
  rcases also with ⟨-, otherName, otherModifiers, otherExp, otherVisits⟩
  have same := visits.at?.symm.trans otherVisits.at?
  cases same
  rfl

/-- The path of an offence leads on to the argument. -/
theorem Offends.at? {node arg : Node} {path : TreePath} (offends : node.Offends path arg) :
    node.at? (path ++ [.arg]) = some arg := by
  rcases offends with ⟨-, name, modifiers, exp, visits⟩
  rw [at?_append, visits.at?]
  rfl

/-- A directive with a refused argument, to which printing comes before every other one. -/
def FirstOffends (node : Node) (path : TreePath) (arg : Node) : Prop :=
  node.Offends path arg ∧
    ∀ other otherArg, node.Offends other otherArg → other = path ∨ path.Before other

/-- Only one offence is the first. -/
theorem FirstOffends.unique {node arg other : Node} {path otherPath : TreePath}
    (first : node.FirstOffends path arg) (also : node.FirstOffends otherPath other) :
    path = otherPath ∧ arg = other := by
  have samePath : path = otherPath := by
    rcases first.2 otherPath other also.1 with equal | before
    · exact equal.symm
    · rcases also.2 path arg first.1 with equal | after
      · exact equal
      · exact absurd after before.asymm
  subst samePath
  exact ⟨rfl, first.1.arg_unique also.1⟩

end Node

/-- What a result of printing says about a tree. -/
structure Reports (node : Node) (printed : Except ArgumentError String) : Prop where
  /-- Printing succeeds when every directive that it comes to has no argument or an
  expression as its argument, and in no other case. -/
  ok_iff : (∃ text, printed = .ok text) ↔
    ∀ path name arg modifiers exp,
      node.Visits path (.property (.directive name arg modifiers exp)) →
      ∀ other ∈ arg, other.kind = .expression
  /-- It fails with the kind of the first argument that is refused and the path to it. -/
  error_iff : ∀ error, printed = .error error ↔
    ∃ path arg, node.FirstOffends path arg ∧ node.at? error.path = some arg ∧
      error.path = path ++ [.arg] ∧ error.kind = arg.kind

theorem FirstOf.reports {node : Node} {printed : Except ArgumentError String}
    (firstOf : FirstOf node.Offends printed) : Reports node printed := by
  constructor
  · constructor
    · rintro ⟨text, rfl⟩ path name arg modifiers exp visits other rfl
      exact Decidable.byContradiction fun refused =>
        firstOf path other ⟨refused, name, modifiers, exp, visits⟩
    · intro allowed
      cases printed with
      | ok text => exact ⟨text, rfl⟩
      | error error =>
          rcases firstOf with ⟨path, arg, ⟨refused, name, modifiers, exp, visits⟩, -⟩
          exact absurd (allowed path name _ modifiers exp visits arg rfl) refused
  · intro error
    cases printed with
    | ok text =>
        constructor
        · rintro ⟨⟩
        · rintro ⟨path, arg, first, -⟩
          exact absurd first.1 (firstOf path arg)
    | error found =>
        rcases firstOf with ⟨path, arg, offends, rfl, least⟩
        constructor
        · rintro ⟨⟩
          exact ⟨path, arg, ⟨offends, least⟩, offends.at?, rfl, rfl⟩
        · rintro ⟨otherPath, other, first, -, samePath, sameKind⟩
          rcases error with ⟨kind, errorPath⟩
          rcases Node.FirstOffends.unique ⟨offends, least⟩ first with ⟨rfl, rfl⟩
          cases samePath
          cases sameKind
          rfl

end SingleFile.Markup

namespace SingleFile

open SingleFile.Markup (Node Reports Template)

/-- Writing the blocks after the template neither fails nor hides a failure. -/
theorem Document.render_of_template {document : Document} {template : Template}
    (present : document.template = some template) :
    Reports (.root template.attrs template.children) document.render := by
  have whole := (Node.root template.attrs template.children).render_firstOf
  rw [Document.render, Document.renderTemplate, present]
  exact (whole.map _).reports

/-- Printing a node, a template or a component fails exactly on a directive's argument that is
no expression, and reports the first one in the order of printing. -/
theorem render_reports :
    (∀ node : Node, Reports node node.render) ∧
    (∀ template : Template,
      Reports (.root template.attrs template.children) template.render) ∧
    ∀ document : Document,
      (document.template = none → ∃ text, document.render = .ok text) ∧
      ∀ template ∈ document.template,
        Reports (.root template.attrs template.children) document.render := by
  refine ⟨fun node => node.render_firstOf.reports, ?_, ?_⟩
  · intro template
    exact (Node.root template.attrs template.children).render_firstOf.reports
  · intro document
    refine ⟨?_, fun template present => Document.render_of_template present⟩
    intro absent
    rw [Document.render, Document.renderTemplate, absent]
    exact ⟨_, rfl⟩

/-! Neither the argument of a directive nor the content of an element that closes itself is
entered; a value is, and so is an expression. -/

example :
    let refused (exp : Option Node) : Node :=
      .property (.directive "on" (some (.interpolation (.text ""))) [] exp)
    let hidden : Node := .element "p" [] [refused none] true
    let bound : Node :=
      .property (.directive "is" (some (.expression "a" true)) [] (some (refused (some hidden))))
    let shown : Node := .element "p" [.attribute "a" (some bound)] [refused none] false
    (Node.root [] [hidden, shown]).render =
      .error ⟨.interpolation, [.child 1, .prop 0, .value, .exp, .arg]⟩ := rfl

end SingleFile
