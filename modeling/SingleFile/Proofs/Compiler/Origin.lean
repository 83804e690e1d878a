import SingleFile.Proofs.Compiler.Descriptor
import SingleFile.Proofs.Compiler.Failure
import SingleFile.Proofs.Markup.Failure

/-!
# Where printing fails in compiler output

A tree that is read from compiler output has the shape of the output: what stands in a
node at a step was read from what stands in the object at the same step. A path into the
tree is therefore a path into the output, and a failure of printing can be reported there.

The tree of a template is taken apart on the way. The children of a root, or of the
template element itself, become those of the root that is printed, which changes no path;
any other node becomes the only child of that root, and the path begins with the step to
it.

Main statement: `printing_error_resolves`.
-/

namespace SingleFile.Markup

theorem Kind.tag_inj {kind other : Kind} (same : kind.tag = other.tag) : kind = other := by
  have known : ofTag? kind.tag = some other := ofTag?_eq_some_iff.2 same
  rw [ofTag?_eq_some_iff.2 rfl] at known
  exact Option.some.inj known

theorem Node.exists_of_kind_element {node : Node} (isElement : node.kind = .element) :
    ∃ tag props children selfClosing, node = .element tag props children selfClosing := by
  cases node with
  | element tag props children selfClosing => exact ⟨tag, props, children, selfClosing, rfl⟩
  | property property => cases property <;> cases isElement
  | _ => cases isElement

end SingleFile.Markup

namespace SingleFile.Compiler

open SingleFile.Markup SingleFile.Json

/-! ## Results that were put together -/

theorem bind_eq_ok_iff {result : Except Error α} {next : α → Except Error β} {found : β} :
    (result >>= next) = .ok found ↔ ∃ first, result = .ok first ∧ next first = .ok found := by
  cases result with
  | ok first => simp
  | error error => simp [bind, Except.bind]

theorem within_eq_ok_iff {step : Step} {result : Except Error α} {found : α} :
    within step result = .ok found ↔ result = .ok found := by
  cases result with
  | ok first => rfl
  | error error =>
      have kept : within step (.error error : Except Error α) = .error (error.under step) := rfl
      simp [kept]

/-- What is read from values one after the other stands where its value stands. -/
theorem exists_of_readAll {step : Nat → Step} {read : Value → Except Error α}
    {readAll : Nat → List Value → Except Error (List α)}
    (nil : ∀ index, readAll index [] = .ok [])
    (cons : ∀ index value values, readAll index (value :: values) =
      within (step index) (read value) >>= fun found =>
        readAll (index + 1) values >>= fun others => pure (found :: others))
    {index position : Nat} {values : List Value} {items : List α} {item : α}
    (done : readAll index values = .ok items) (found : items[position]? = some item) :
    ∃ value, values[position]? = some value ∧ read value = .ok item := by
  induction values generalizing index position items with
  | nil =>
      rw [nil, Except.ok.injEq] at done
      subst done
      simp at found
  | cons value values ih =>
      rw [cons] at done
      obtain ⟨first, here, done⟩ := bind_eq_ok_iff.1 done
      obtain ⟨others, later, done⟩ := bind_eq_ok_iff.1 done
      rw [pure_eq_ok, Except.ok.injEq] at done
      subst done
      cases position with
      | zero =>
          rw [List.getElem?_cons_zero, Option.some.injEq] at found
          subst found
          exact ⟨value, rfl, within_eq_ok_iff.1 here⟩
      | succ position => exact ih later found

/-! ## The parts that a node was read from -/

/-- Every part of a node was read from the part of a value at the same step. -/
def Mirrors (value : Value) (node : Node) : Prop :=
  ∀ step part, node.part? step = some part →
    ∃ source, value.part? step = some source ∧ readNode source = .ok part

theorem exists_of_readChildren {members : Members} {nodes : List Node} {index : Nat} {node : Node}
    (read : readChildren members = .ok nodes) (found : nodes[index]? = some node) :
    ∃ source, (Value.object members).part? (.child index) = some source ∧
      readNode source = .ok node := by
  rw [readChildren] at read
  split at read
  next =>
    cases read
    simp at found
  next values isArray =>
    obtain ⟨source, held, done⟩ := exists_of_readAll (fun _ => by rw [readNodes])
      (fun _ _ _ => by rw [readNodes]) read found
    exact ⟨source, by simp [Value.part?, Value.item?, Value.field?, isArray, held], done⟩
  next => cases read

theorem readNode_of_readProp {value : Value} {property : Property}
    (read : readProp value = .ok property) : readNode value = .ok (.property property) := by
  cases value with
  | object members =>
      rw [readProp] at read
      obtain ⟨kind, known, read⟩ := bind_eq_ok_iff.1 read
      rw [readNode, known, ok_bind]
      match kind with
      | .attribute | .directive => exact bind_eq_ok_iff.2 ⟨property, read, rfl⟩
      | .root | .element | .text | .comment | .expression | .interpolation => cases read
  | _ => simp [readProp] at read

theorem exists_of_readProps {members : Members} {props : List Property} {index : Nat}
    {property : Property} (read : readProps members = .ok props)
    (found : props[index]? = some property) :
    ∃ source, (Value.object members).part? (.prop index) = some source ∧
      readNode source = .ok (.property property) := by
  rw [readProps] at read
  split at read
  next =>
    cases read
    simp at found
  next values isArray =>
    obtain ⟨source, held, done⟩ := exists_of_readAll (fun _ => by rw [readPropList])
      (fun _ _ _ => by rw [readPropList]) read found
    exact ⟨source, by simp [Value.part?, Value.item?, Value.field?, isArray, held],
      readNode_of_readProp done⟩
  next => cases read

theorem exists_of_readContent {members : Members} {node : Node}
    (read : readContent members = .ok node) :
    ∃ source, members.get? "content" = some source ∧ readNode source = .ok node := by
  rw [readContent] at read
  split at read
  next => cases read
  next source found => exact ⟨source, found, within_eq_ok_iff.1 read⟩

theorem exists_of_readOptional {members : Members} {key : String} {step : Step} {node : Node}
    (read : readOptional members key step = .ok (some node)) :
    ∃ source, members.get? key = some source ∧ readNode source = .ok node := by
  rw [readOptional] at read
  split at read
  next => cases read
  next => cases read
  next source _ found =>
    refine ⟨source, found, ?_⟩
    cases outcome : readNode source with
    | ok other =>
        rw [outcome] at read
        cases read
        rfl
    | error error =>
        rw [outcome] at read
        cases read

theorem readAttribute_mirrors {members : Members} {property : Property}
    (read : readAttribute members = .ok property) :
    property.kind = .attribute ∧ Mirrors (.object members) (.property property) := by
  rw [readAttribute] at read
  obtain ⟨name, -, read⟩ := bind_eq_ok_iff.1 read
  obtain ⟨value, optional, read⟩ := bind_eq_ok_iff.1 read
  cases read
  refine ⟨rfl, ?_⟩
  intro step part found
  cases step with
  | value =>
      simp only [Node.part?] at found
      subst found
      exact exists_of_readOptional optional
  | _ => cases found

theorem readDirective_mirrors {members : Members} {property : Property}
    (read : readDirective members = .ok property) :
    property.kind = .directive ∧ Mirrors (.object members) (.property property) := by
  rw [readDirective] at read
  obtain ⟨modifiers, -, read⟩ := bind_eq_ok_iff.1 read
  obtain ⟨name, -, read⟩ := bind_eq_ok_iff.1 read
  obtain ⟨arg, optionalArg, read⟩ := bind_eq_ok_iff.1 read
  obtain ⟨exp, optionalExp, read⟩ := bind_eq_ok_iff.1 read
  cases read
  refine ⟨rfl, ?_⟩
  intro step part found
  cases step with
  | arg =>
      simp only [Node.part?] at found
      subst found
      exact exists_of_readOptional optionalArg
  | exp =>
      simp only [Node.part?] at found
      subst found
      exact exists_of_readOptional optionalExp
  | _ => cases found

/-- A node without parts mirrors every value. -/
theorem mirrors_of_bare {node : Node} (bare : ∀ step, node.part? step = none) (value : Value) :
    Mirrors value node := by
  intro step part found
  rw [bare step] at found
  cases found

/-- The children of a root are those of an object, whatever its attributes are. -/
theorem mirrors_root {members : Members} {children : List Node}
    (read : readChildren members = .ok children) (attrs : List Attr) :
    Mirrors (.object members) (.root attrs children) := by
  intro step part found
  cases step with
  | child index => exact exists_of_readChildren read found
  | _ => cases found

theorem mirrors_element {members : Members} {props : List Property} {children : List Node}
    (properties : readProps members = .ok props) (content : readChildren members = .ok children)
    (tag : String) (selfClosing : Bool) :
    Mirrors (.object members) (.element tag props children selfClosing) := by
  intro step part found
  cases step with
  | child index => exact exists_of_readChildren content found
  | prop index =>
      obtain ⟨property, held, rfl⟩ := Option.map_eq_some_iff.1 found
      exact exists_of_readProps properties held
  | _ => cases found

theorem mirrors_interpolation {members : Members} {node : Node}
    (read : readContent members = .ok node) :
    Mirrors (.object members) (.interpolation node) := by
  intro step part found
  cases step with
  | content =>
      cases found
      exact exists_of_readContent read
  | _ => cases found

/-- A node is of the kind of its object and mirrors it. -/
theorem readNode_mirrors {value : Value} {node : Node} (read : readNode value = .ok node) :
    value.type? = some node.kind.tag ∧ Mirrors value node := by
  cases value with
  | object members =>
      rw [readNode] at read
      obtain ⟨kind, known, read⟩ := bind_eq_ok_iff.1 read
      have type := kindOf_eq_ok_iff.1 known
      match kind, read, type with
      | .root, read, type =>
          obtain ⟨attrs, -, read⟩ := bind_eq_ok_iff.1 read
          obtain ⟨children, content, read⟩ := bind_eq_ok_iff.1 read
          cases read
          exact ⟨type, mirrors_root content attrs⟩
      | .element, read, type =>
          obtain ⟨tag, -, read⟩ := bind_eq_ok_iff.1 read
          obtain ⟨props, properties, read⟩ := bind_eq_ok_iff.1 read
          obtain ⟨children, content, read⟩ := bind_eq_ok_iff.1 read
          cases read
          exact ⟨type, mirrors_element properties content tag _⟩
      | .text, read, type | .comment, read, type | .expression, read, type =>
          obtain ⟨content, -, read⟩ := bind_eq_ok_iff.1 read
          cases read
          exact ⟨type, mirrors_of_bare (fun step => by cases step <;> rfl) _⟩
      | .interpolation, read, type =>
          obtain ⟨inner, content, read⟩ := bind_eq_ok_iff.1 read
          cases read
          exact ⟨type, mirrors_interpolation content⟩
      | .attribute, read, type =>
          obtain ⟨property, isAttribute, read⟩ := bind_eq_ok_iff.1 read
          cases read
          obtain ⟨kind, mirrors⟩ := readAttribute_mirrors isAttribute
          exact ⟨by rw [type, Node.kind, kind], mirrors⟩
      | .directive, read, type =>
          obtain ⟨property, isDirective, read⟩ := bind_eq_ok_iff.1 read
          cases read
          obtain ⟨kind, mirrors⟩ := readDirective_mirrors isDirective
          exact ⟨by rw [type, Node.kind, kind], mirrors⟩
  | _ => simp [readNode] at read

/-- What a path leads to in a node was read from what it leads to in the value. -/
theorem Mirrors.exists_of_at? {value : Value} {node target : Node} {step : Step} {path : TreePath}
    (mirrors : Mirrors value node) (found : node.at? (step :: path) = some target) :
    ∃ source, value.at? (step :: path) = some source ∧ readNode source = .ok target := by
  -- The parts of a node are whole nodes again, so the induction is on the steps that are left.
  induction path generalizing value node step with
  | nil =>
      rw [Node.at?] at found
      obtain ⟨part, held, same⟩ := Option.bind_eq_some_iff.1 found
      obtain ⟨source, leads, read⟩ := mirrors step part held
      cases same
      exact ⟨source, by rw [Value.at?, leads]; rfl, read⟩
  | cons next path ih =>
      rw [Node.at?] at found
      obtain ⟨part, held, inner⟩ := Option.bind_eq_some_iff.1 found
      obtain ⟨source, leads, read⟩ := mirrors step part held
      obtain ⟨origin, resolved, done⟩ := ih (readNode_mirrors read).2 inner
      exact ⟨origin, by rw [Value.at?, leads]; exact resolved, done⟩

/-! ## Errors of printing -/

/-- The path of an error leads in a value to an object of the kind that is refused. -/
def Locates (value : Value) (error : ArgumentError) : Prop :=
  ∃ members, value.at? error.path = some (.object members) ∧
    (Value.object members).type? = some error.kind.tag

theorem locates_of_readNode {value source : Value} {error : ArgumentError} {arg : Node}
    (leads : value.at? error.path = some source) (read : readNode source = .ok arg)
    (kind : error.kind = arg.kind) : Locates value error := by
  have type := (readNode_mirrors read).1
  cases source with
  | object members => exact ⟨members, leads, by rw [kind]; exact type⟩
  | _ => simp [readNode] at read

/-- What printing a node reports is found in every value that the node mirrors. -/
theorem Mirrors.locates {value : Value} {node : Node} {printed : Except ArgumentError String}
    {error : ArgumentError} (mirrors : Mirrors value node) (reports : Reports node printed)
    (failed : printed = .error error) : Locates value error := by
  obtain ⟨path, arg, -, found, shape, kind⟩ := (reports.error_iff error).1 failed
  cases steps : error.path with
  | nil => simp [shape] at steps
  | cons step rest =>
      rw [steps] at found
      obtain ⟨source, leads, read⟩ := mirrors.exists_of_at? found
      exact locates_of_readNode (by rw [steps]; exact leads) read kind

/-- A node below a new root is reported behind the step to it. -/
theorem locates_of_only {value : Value} {node : Node} {attrs : List Attr}
    {printed : Except ArgumentError String} {error : ArgumentError}
    (read : readNode value = .ok node) (reports : Reports (.root attrs [node]) printed)
    (failed : printed = .error error) :
    ∃ path, error.path = .child 0 :: path ∧ Locates value ⟨error.kind, path⟩ := by
  obtain ⟨front, arg, -, found, shape, kind⟩ := (reports.error_iff error).1 failed
  cases steps : error.path with
  | nil => simp [shape] at steps
  | cons step path =>
      rw [steps, Node.at?] at found
      obtain ⟨part, held, inner⟩ := Option.bind_eq_some_iff.1 found
      have single : step = .child 0 ∧ part = node := by
        cases step with
        | child index => cases index <;> simp_all [Node.part?]
        | _ => cases held
      obtain ⟨rfl, rfl⟩ := single
      refine ⟨path, rfl, ?_⟩
      cases path with
      | nil =>
          cases inner
          exact locates_of_readNode rfl read kind
      | cons next path =>
          obtain ⟨source, leads, origin⟩ := (readNode_mirrors read).2.exists_of_at? inner
          exact locates_of_readNode leads origin kind

/-! ## The tree of a template -/

/-- A tree that is that of a template: a root, or the template element. -/
def IsTemplateTree (tree : Value) : Prop :=
  tree.type? = some Kind.root.tag ∨
    tree.type? = some Kind.element.tag ∧ tree.field? "tag" = some (.string "template")

theorem requireText_eq_ok_iff {members : Members} {key text : String} :
    requireText members key = .ok text ↔ members.get? key = some (.string text) := by
  constructor
  · intro read
    simp only [requireText, Members.text?] at read
    cases found : members.get? key with
    | none => simp [found] at read
    | some value =>
        cases value with
        | string other => simpa [found] using read
        | _ => simp [found] at read
  · exact requireText_eq_ok

/-- The element that an object stands for has its tag and children from there. -/
theorem exists_of_readNode_element {members : Members} {tag : String} {props : List Property}
    {children : List Node} {selfClosing : Bool}
    (read : readNode (.object members) = .ok (.element tag props children selfClosing)) :
    members.get? "tag" = some (.string tag) ∧ readChildren members = .ok children := by
  have known : kindOf members = .ok .element := kindOf_eq_ok_iff.2 (readNode_mirrors read).1
  rw [readNode, known, ok_bind] at read
  obtain ⟨name, named, read⟩ := bind_eq_ok_iff.1 read
  obtain ⟨properties, -, read⟩ := bind_eq_ok_iff.1 read
  obtain ⟨nodes, content, read⟩ := bind_eq_ok_iff.1 read
  cases read
  exact ⟨requireText_eq_ok_iff.1 named, content⟩

/-- Apart from roots, the trees of templates are those that are read as the template element. -/
theorem isTemplateTree_iff {members : Members} {node : Node}
    (read : readNode (.object members) = .ok node) (notRoot : node.kind ≠ .root) :
    IsTemplateTree (.object members) ↔
      ∃ props children selfClosing, node = .element "template" props children selfClosing := by
  have type := (readNode_mirrors read).1
  constructor
  · intro isTree
    rcases isTree with isRoot | ⟨isElement, named⟩
    · exact absurd (Kind.tag_inj (Option.some.inj (type.symm.trans isRoot))) notRoot
    · have kind := Kind.tag_inj (Option.some.inj (type.symm.trans isElement))
      obtain ⟨tag, props, children, selfClosing, rfl⟩ := Node.exists_of_kind_element kind
      have own := (exists_of_readNode_element read).1
      cases own.symm.trans named
      exact ⟨props, children, selfClosing, rfl⟩
  · rintro ⟨props, children, selfClosing, rfl⟩
    exact .inr ⟨type, (exists_of_readNode_element read).1⟩

/-- The content of a template is that of its tree, or the tree is its only content. -/
theorem readForest_mirrors {tree : Value} {nodes : List Node} (read : readForest tree = .ok nodes)
    (attrs : List Attr) :
    (IsTemplateTree tree → Mirrors tree (.root attrs nodes)) ∧
      (¬ IsTemplateTree tree → ∃ node, nodes = [node] ∧ readNode tree = .ok node) := by
  cases tree with
  | object members =>
      rw [readForest] at read
      obtain ⟨kind, known, read⟩ := bind_eq_ok_iff.1 read
      have type := kindOf_eq_ok_iff.1 known
      split at read
      next => exact ⟨fun _ => mirrors_root read attrs, fun other => absurd (.inl type) other⟩
      next notRoot =>
        obtain ⟨node, done, read⟩ := bind_eq_ok_iff.1 read
        have same := Kind.tag_inj (Option.some.inj (type.symm.trans (readNode_mirrors done).1))
        have isTree := isTemplateTree_iff done (same ▸ notRoot)
        split at read
        next tag props children selfClosing =>
          split at read
          next named =>
            cases named
            cases read
            have content := (exists_of_readNode_element done).2
            exact ⟨fun _ => mirrors_root content attrs,
              fun other => absurd (isTree.2 ⟨_, _, _, rfl⟩) other⟩
          next unnamed =>
            cases read
            refine ⟨fun tree => ?_, fun _ => ⟨_, rfl, done⟩⟩
            obtain ⟨_, _, _, equal⟩ := isTree.1 tree
            cases equal
            exact absurd rfl unnamed
        next notElement =>
          cases read
          refine ⟨fun tree => ?_, fun _ => ⟨node, rfl, done⟩⟩
          obtain ⟨_, _, _, equal⟩ := isTree.1 tree
          exact (notElement _ _ _ _ equal).elim
  | _ => cases read

/-- A component that is read has its template from the entry for it. -/
theorem exists_of_readDocument {source : Value} {document : Document} {descriptor : Descriptor}
    {entry : TemplateEntry} {tree : Value}
    (accepted : Descriptor.ofValue? ((source.field? "descriptor").getD source) = some descriptor)
    (present : descriptor.template = some entry) (held : entry.ast = some tree)
    (read : readDocument source = .ok document) :
    ∃ attrs nodes, document.template = some ⟨attrs, nodes⟩ ∧ readForest tree = .ok nodes := by
  simp only [readDocument, accepted, Descriptor.toDocument, present, convertOption] at read
  obtain ⟨template, converted, read⟩ := bind_eq_ok_iff.1 read
  obtain ⟨script, -, read⟩ := bind_eq_ok_iff.1 read
  obtain ⟨scriptSetup, -, read⟩ := bind_eq_ok_iff.1 read
  obtain ⟨styles, -, read⟩ := bind_eq_ok_iff.1 read
  obtain ⟨customBlocks, -, read⟩ := bind_eq_ok_iff.1 read
  cases read
  cases outcome : entry.toTemplate with
  | error error =>
      rw [outcome] at converted
      cases converted
  | ok given =>
      rw [outcome] at converted
      cases converted
      simp only [TemplateEntry.toTemplate, held] at outcome
      obtain ⟨attrs, -, outcome⟩ := bind_eq_ok_iff.1 outcome
      obtain ⟨nodes, content, outcome⟩ := bind_eq_ok_iff.1 outcome
      cases outcome
      exact ⟨attrs, nodes, rfl, content⟩

/-- Where printing fails on what was read from compiler output, the path of the error leads in
the output to an object of the kind that is refused. For a component it leads there from the
tree of the template, behind the step to it where the tree is the only content of the
template. -/
theorem printing_error_resolves :
    (∀ value node error, readNode value = .ok node → node.render = .error error →
      Locates value error) ∧
    ∀ source document descriptor entry tree error,
      Descriptor.ofValue? ((source.field? "descriptor").getD source) = some descriptor →
      descriptor.template = some entry → entry.ast = some tree →
      readDocument source = .ok document → document.render = .error error →
      (IsTemplateTree tree → Locates tree error) ∧
        (¬ IsTemplateTree tree →
          ∃ path, error.path = .child 0 :: path ∧ Locates tree ⟨error.kind, path⟩) := by
  constructor
  · intro value node error read failed
    exact (readNode_mirrors read).2.locates node.render_firstOf.reports failed
  · intro source document descriptor entry tree error accepted present held read failed
    obtain ⟨attrs, nodes, template, content⟩ := exists_of_readDocument accepted present held read
    have reports := Document.render_of_template template
    obtain ⟨whole, only⟩ := readForest_mirrors content attrs
    refine ⟨fun isTree => (whole isTree).locates reports failed, fun other => ?_⟩
    obtain ⟨node, rfl, done⟩ := only other
    exact locates_of_only done reports failed

theorem printing_error_resolves_sample :
    let node : Node := .element "b" [.directive "on" (some (.comment "")) [] none] [] false
    let tree := encodeNode (.element "template" [] [.text " ", node] true)
    let source : Value := .object [("template", .object [("ast", tree)])]
    let document : Document := ⟨some ⟨[], [.text " ", node]⟩, none, none, [], []⟩
    (readNode (encodeNode node) = .ok node ∧
      node.render = .error ⟨.comment, [.prop 0, .arg]⟩ ∧
      Locates (encodeNode node) ⟨.comment, [.prop 0, .arg]⟩) ∧
    readDocument source = .ok document ∧
      document.render = .error ⟨.comment, [.child 1, .prop 0, .arg]⟩ ∧
      Locates tree ⟨.comment, [.child 1, .prop 0, .arg]⟩ := by
  intro node tree source document
  have read : readNode (encodeNode node) = .ok node :=
    readNode_of_encodes node (by decide) (encodes_encodeNode node)
  have failed : node.render = .error ⟨.comment, [.prop 0, .arg]⟩ := rfl
  have forest : readForest tree = .ok [.text " ", node] :=
    readForest_of_encodes (by decide) (@EncodesForest.element _ [] true _ (by decide)
      (encodes_encodeNode _))
  have readWhole : readDocument source = .ok document := by
    rw [readDocument, show Descriptor.ofValue? ((source.field? "descriptor").getD source) =
      some ⟨some ⟨"", [], some tree⟩, none, none, [], []⟩ from rfl]
    simp [Descriptor.toDocument, convertOption, convertList, TemplateEntry.toTemplate, readAttrs,
      forest, Except.map, document]
  have failedWhole : document.render = .error ⟨.comment, [.child 1, .prop 0, .arg]⟩ := rfl
  have located := printing_error_resolves.2 source document _ _ tree _ rfl rfl rfl readWhole
    failedWhole
  exact ⟨⟨read, failed, printing_error_resolves.1 _ node _ read failed⟩, readWhole,
    failedWhole, located.1 (.inr ⟨rfl, rfl⟩)⟩

end SingleFile.Compiler
