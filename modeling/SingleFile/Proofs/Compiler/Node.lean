import SingleFile.Compiler.Node
import SingleFile.Markup.Printer
import SingleFile.Proofs.Block.Source

/-!
# Markup trees as compiler output

A compiler's object for a node is given by what its keys hold, so the order of the
keys and further keys do not matter. What is absent is left out or `null`, and a
modifier is a string or an object with its content, at each place independently.

Reading gives back the node from everything that stands for it. The attributes of a
root take a detour through its source, so they have to be such that an opening tag
can carry them.

Main statements: `encodes_encodeNode`, every node has an object that stands for it,
and `readNode_of_encodes`.
-/

namespace SingleFile.Compiler

open SingleFile.Markup SingleFile.Json

/-! ## What stands for a tree -/

/-- One value for each item of a list, in its order. -/
inductive Listed (encodes : α → Value → Prop) : List α → List Value → Prop where
  | nil : Listed encodes [] []
  | cons {item : α} {value : Value} {items : List α} {values : List Value} :
      encodes item value → Listed encodes items values →
      Listed encodes (item :: items) (value :: values)

/-- What a key holds for something that may be absent. -/
inductive Optional (encodes : α → Value → Prop) : Option α → Option Value → Prop where
  | omitted : Optional encodes none none
  | null : Optional encodes none (some .null)
  | present {item : α} {value : Value} :
      encodes item value → Optional encodes (some item) (some value)

/-- The number that marks objects of a kind. -/
def typeOf (kind : Kind) : Value := .number (.integer kind.tag)

/-- A modifier, by itself or as the content of an expression. -/
inductive EncodesModifier : String → Value → Prop where
  | text {modifier : String} : EncodesModifier modifier (.string modifier)
  | expression {modifier : String} {members : Members} :
      members.get? "content" = some (.string modifier) →
      EncodesModifier modifier (.object members)

mutual

/-- A value stands for a node. -/
inductive Encodes : Node → Value → Prop where
  /-- The source of a root begins with its opening tag. -/
  | root {attrs : List Attr} {children : List Node} {members : Members} {rest : String}
      {values : List Value} :
      members.get? "type" = some (typeOf .root) →
      members.get? "source" = some (.string (openTemplate attrs ++ rest)) →
      members.get? "children" = some (.array values) → Listed Encodes children values →
      Encodes (.root attrs children) (.object members)
  | element {tag : String} {props : List Property} {children : List Node} {selfClosing : Bool}
      {members : Members} {propValues values : List Value} :
      members.get? "type" = some (typeOf .element) →
      members.get? "tag" = some (.string tag) →
      members.get? "props" = some (.array propValues) → Listed EncodesProp props propValues →
      members.get? "children" = some (.array values) → Listed Encodes children values →
      members.get? "isSelfClosing" = some (.bool selfClosing) →
      Encodes (.element tag props children selfClosing) (.object members)
  | text {content : String} {members : Members} :
      members.get? "type" = some (typeOf .text) →
      members.get? "content" = some (.string content) →
      Encodes (.text content) (.object members)
  | comment {content : String} {members : Members} :
      members.get? "type" = some (typeOf .comment) →
      members.get? "content" = some (.string content) →
      Encodes (.comment content) (.object members)
  | expression {content : String} {isStatic : Bool} {members : Members} :
      members.get? "type" = some (typeOf .expression) →
      members.get? "content" = some (.string content) →
      members.get? "isStatic" = some (.bool isStatic) →
      Encodes (.expression content isStatic) (.object members)
  | interpolation {content : Node} {members : Members} {value : Value} :
      members.get? "type" = some (typeOf .interpolation) →
      members.get? "content" = some value → Encodes content value →
      Encodes (.interpolation content) (.object members)
  | property {property : Property} {value : Value} :
      EncodesProp property value → Encodes (.property property) value

/-- A value stands for a property. -/
inductive EncodesProp : Property → Value → Prop where
  | attribute {name : String} {node : Option Node} {members : Members} :
      members.get? "type" = some (typeOf .attribute) →
      members.get? "name" = some (.string name) →
      Optional Encodes node (members.get? "value") →
      EncodesProp (.attribute name node) (.object members)
  | directive {name : String} {arg exp : Option Node} {modifiers : List String}
      {members : Members} {values : List Value} :
      members.get? "type" = some (typeOf .directive) →
      members.get? "name" = some (.string name) →
      Optional Encodes arg (members.get? "arg") →
      members.get? "modifiers" = some (.array values) →
      Listed EncodesModifier modifiers values →
      Optional Encodes exp (members.get? "exp") →
      EncodesProp (.directive name arg modifiers exp) (.object members)

end

/-! ## An object for every node -/

mutual

/-- The plainest object that stands for a node. -/
def encodeNode : Node → Value
  | .root attrs children =>
    .object [("type", typeOf .root), ("source", .string (openTemplate attrs)),
      ("children", .array (encodeNodes children))]
  | .element tag props children selfClosing =>
    .object [("type", typeOf .element), ("tag", .string tag),
      ("props", .array (encodeProps props)), ("children", .array (encodeNodes children)),
      ("isSelfClosing", .bool selfClosing)]
  | .text content => .object [("type", typeOf .text), ("content", .string content)]
  | .comment content => .object [("type", typeOf .comment), ("content", .string content)]
  | .expression content isStatic =>
    .object [("type", typeOf .expression), ("content", .string content),
      ("isStatic", .bool isStatic)]
  | .interpolation content =>
    .object [("type", typeOf .interpolation), ("content", encodeNode content)]
  | .property property => encodeProp property

def encodeProp : Property → Value
  | .attribute name value =>
    .object [("type", typeOf .attribute), ("name", .string name), ("value", encodeOptional value)]
  | .directive name arg modifiers exp =>
    .object [("type", typeOf .directive), ("name", .string name), ("arg", encodeOptional arg),
      ("modifiers", .array (modifiers.map .string)), ("exp", encodeOptional exp)]

def encodeOptional : Option Node → Value
  | none => .null
  | some node => encodeNode node

def encodeNodes : List Node → List Value
  | [] => []
  | node :: nodes => encodeNode node :: encodeNodes nodes

def encodeProps : List Property → List Value
  | [] => []
  | property :: props => encodeProp property :: encodeProps props

end

theorem listed_map {encodes : α → Value → Prop} {encode : α → Value}
    (each : ∀ item, encodes item (encode item)) (items : List α) :
    Listed encodes items (items.map encode) := by
  induction items with
  | nil => exact .nil
  | cons item items ih => exact .cons (each item) ih

mutual

theorem encodes_encodeNode : (node : Node) → Encodes node (encodeNode node)
  | .root attrs children => by
      have source : openTemplate attrs = openTemplate attrs ++ "" := String.append_empty.symm
      exact .root rfl (congrArg (some ∘ Value.string) source) rfl (listed_encodeNodes children)
  | .element _ props children _ =>
      .element rfl rfl rfl (listed_encodeProps props) rfl (listed_encodeNodes children) rfl
  | .text _ => .text rfl rfl
  | .comment _ => .comment rfl rfl
  | .expression _ _ => .expression rfl rfl rfl
  | .interpolation content => .interpolation rfl rfl (encodes_encodeNode content)
  | .property property => .property (encodes_encodeProp property)

theorem encodes_encodeProp : (property : Property) → EncodesProp property (encodeProp property)
  | .attribute _ value => .attribute rfl rfl (optional_encodeOptional value)
  | .directive _ arg modifiers exp =>
      .directive rfl rfl (optional_encodeOptional arg) rfl
        (listed_map (fun _ => .text) modifiers) (optional_encodeOptional exp)

theorem optional_encodeOptional :
    (node : Option Node) → Optional Encodes node (some (encodeOptional node))
  | none => .null
  | some node => .present (encodes_encodeNode node)

theorem listed_encodeNodes : (nodes : List Node) → Listed Encodes nodes (encodeNodes nodes)
  | [] => .nil
  | node :: nodes => .cons (encodes_encodeNode node) (listed_encodeNodes nodes)

theorem listed_encodeProps : (props : List Property) →
    Listed EncodesProp props (encodeProps props)
  | [] => .nil
  | property :: props => .cons (encodes_encodeProp property) (listed_encodeProps props)

end

/-! ## Reading -/

mutual

/-- The attributes of every root in a tree. -/
def rootAttrs : Node → List Attr
  | .root attrs children => attrs ++ rootAttrsAll children
  | .element _ props children _ => propRootAttrsAll props ++ rootAttrsAll children
  | .text _ | .comment _ | .expression _ _ => []
  | .interpolation content => rootAttrs content
  | .property property => propRootAttrs property

def propRootAttrs : Property → List Attr
  | .attribute _ value => optionalRootAttrs value
  | .directive _ arg _ exp => optionalRootAttrs arg ++ optionalRootAttrs exp

def optionalRootAttrs : Option Node → List Attr
  | none => []
  | some node => rootAttrs node

def rootAttrsAll : List Node → List Attr
  | [] => []
  | node :: nodes => rootAttrs node ++ rootAttrsAll nodes

def propRootAttrsAll : List Property → List Attr
  | [] => []
  | property :: props => propRootAttrs property ++ propRootAttrsAll props

end

/-- Attributes that an opening tag can carry. -/
def Portable (attrs : List Attr) : Prop := ∀ attr ∈ attrs, attr.Legal ∧ attr.QuoteFree

instance (attrs : List Attr) : Decidable (Portable attrs) :=
  inferInstanceAs (Decidable (∀ attr ∈ attrs, attr.Legal ∧ attr.QuoteFree))

theorem portable_append {front back : List Attr} :
    Portable (front ++ back) ↔ Portable front ∧ Portable back := List.forall_mem_append

@[simp] theorem within_ok (step : Step) (result : α) :
    within step (.ok result) = .ok result := rfl

@[simp] theorem ok_bind (result : α) (next : α → Except Error β) :
    (Except.ok result >>= next) = next result := rfl

@[simp] theorem pure_eq_ok (result : α) : (pure result : Except Error α) = .ok result := rfl

theorem kindOf_eq_ok {members : Members} {kind : Kind}
    (type : members.get? "type" = some (typeOf kind)) : kindOf members = .ok kind := by
  rw [kindOf, type]
  cases kind <;> rfl

theorem requireText_eq_ok {members : Members} {key text : String}
    (found : members.get? key = some (.string text)) : requireText members key = .ok text := by
  simp [requireText, Members.text?, found]

theorem flag_eq {members : Members} {key : String} {holds : Bool}
    (found : members.get? key = some (.bool holds)) : Members.flag members key = holds := by
  simp [Members.flag, found]

/-- The attributes of a written opening tag are those of the first template in the text. -/
theorem firstTemplateAttrs?_openTemplate {attrs : List Attr} (portable : Portable attrs)
    (rest : String) :
    Block.firstTemplateAttrs? (openTemplate attrs ++ rest).toList = some attrs := by
  have shape : (openTemplate attrs ++ rest).toList = [] ++ ("<template".toList ++
      ((Attr.renderAll attrs).toList ++ '>' :: rest.toList)) := by
    simp [openTemplate]
  have opened := @Text.cut?_append "<template".toList [] (by decide +kernel)
    ((Attr.renderAll attrs).toList ++ '>' :: rest.toList)
  have ended := Block.endOfName?_eq_some (Block.head?_renderAll attrs rest.toList)
  have read := Block.readOpenTail?_renderAll (fun attr member => (portable attr member).1)
    (fun attr member => (portable attr member).2) rest.toList
  rw [shape, Block.firstTemplateAttrs?, opened]
  simp [ended, read]

/-- The attributes of a root are read back from the opening tag in its source. -/
theorem readRootAttrs_eq_ok {members : Members} {attrs : List Attr} {rest : String}
    (portable : Portable attrs)
    (source : members.get? "source" = some (.string (openTemplate attrs ++ rest))) :
    readRootAttrs members = .ok attrs := by
  have text : members.text? "source" = some (openTemplate attrs ++ rest) := by
    rw [Members.text?, source]
  rw [readRootAttrs, text, Option.getD_some, firstTemplateAttrs?_openTemplate portable]

theorem readModifierList_of_listed {modifiers : List String} {values : List Value}
    (listed : Listed EncodesModifier modifiers values) (index : Nat) :
    readModifierList index values = .ok modifiers := by
  induction listed generalizing index with
  | nil => rfl
  | cons encodes _ ih =>
      cases encodes with
      | text => simp [readModifierList, readModifier, ih]
      | expression content =>
          simp [readModifierList, readModifier, requireText_eq_ok content, ih]

theorem readChildren_eq {members : Members} {values : List Value}
    (found : members.get? "children" = some (.array values)) :
    readChildren members = readNodes 0 values := by
  rw [readChildren]
  split <;> simp_all

theorem readProps_eq {members : Members} {values : List Value}
    (found : members.get? "props" = some (.array values)) :
    readProps members = readPropList 0 values := by
  rw [readProps]
  split <;> simp_all

theorem readContent_eq {members : Members} {value : Value}
    (found : members.get? "content" = some value) :
    readContent members = within .content (readNode value) := by
  rw [readContent]
  split <;> simp_all

/-- A property is read alike among the properties of an element and as a node. -/
theorem readNode_eq_readProp : {property : Property} → {value : Value} →
    EncodesProp property value → readNode value = (readProp value).map .property
  | _, _, .attribute type _ _ => by
      simp only [readNode, readProp, kindOf_eq_ok type, ok_bind]
      rfl
  | _, _, .directive type _ _ _ _ _ => by
      simp only [readNode, readProp, kindOf_eq_ok type, ok_bind]
      rfl

theorem readModifiers_of_listed {members : Members} {modifiers : List String}
    {values : List Value} (found : members.get? "modifiers" = some (.array values))
    (listed : Listed EncodesModifier modifiers values) :
    readModifiers members = .ok modifiers := by
  rw [readModifiers, found]
  exact readModifierList_of_listed listed 0

theorem readOptional_eq_none {members : Members} {key : String}
    (absent : Optional Encodes none (members.get? key)) (step : Step) :
    readOptional members key step = .ok none := by
  rw [readOptional]
  split
  next => rfl
  next => rfl
  next value present found =>
    rw [found] at absent
    cases absent
    exact absurd rfl present

theorem readOptional_eq_some {members : Members} {key : String} {value : Value} {node : Node}
    (found : members.get? key = some value) (proper : value ≠ .null)
    (read : readNode value = .ok node) (step : Step) :
    readOptional members key step = .ok (some node) := by
  rw [readOptional]
  split <;> simp_all [Except.map]

theorem Encodes.ne_null {node : Node} {value : Value} (encodes : Encodes node value) :
    value ≠ .null := by
  rintro rfl
  cases encodes with
  | property encodes => cases encodes

mutual

/-- A node is read from every value that stands for it. -/
theorem readNode_of_encodes : (node : Node) → Portable (rootAttrs node) → {value : Value} →
    Encodes node value → readNode value = .ok node
  | .root attrs children, portable, _, .root type source found listed => by
      rcases portable_append.1 portable with ⟨attrsOk, childrenOk⟩
      have nodes := readNodes_of_listed children childrenOk listed 0
      simp [readNode, kindOf_eq_ok type, readRootAttrs_eq_ok attrsOk source,
        readChildren_eq found, nodes]
  | .element tag props children selfClosing, portable, _,
      .element type name foundProps listedProps found listed closing => by
      rcases portable_append.1 portable with ⟨propsOk, childrenOk⟩
      have properties := readPropList_of_listed props propsOk listedProps 0
      have nodes := readNodes_of_listed children childrenOk listed 0
      simp [readNode, kindOf_eq_ok type, requireText_eq_ok name, readProps_eq foundProps,
        properties, readChildren_eq found, nodes, flag_eq closing]
  | .text content, _, _, .text type found => by
      simp [readNode, kindOf_eq_ok type, requireText_eq_ok found]
  | .comment content, _, _, .comment type found => by
      simp [readNode, kindOf_eq_ok type, requireText_eq_ok found]
  | .expression content isStatic, _, _, .expression type found static => by
      simp [readNode, kindOf_eq_ok type, requireText_eq_ok found, flag_eq static]
  | .interpolation content, portable, _, .interpolation type found encodes => by
      have inner := readNode_of_encodes content portable encodes
      simp [readNode, kindOf_eq_ok type, readContent_eq found, inner]
  | .property property, portable, _, .property encodes => by
      rw [readNode_eq_readProp encodes, readProp_of_encodes property portable encodes, Except.map]

theorem readProp_of_encodes : (property : Property) → Portable (propRootAttrs property) →
    {value : Value} → EncodesProp property value → readProp value = .ok property
  | .attribute name node, portable, _, .attribute type named value => by
      have read := readOptional_of_optional node portable .value value
      simp [readProp, kindOf_eq_ok type, readAttribute, requireText_eq_ok named, read]
  | .directive name arg modifiers exp, portable, _,
      .directive type named optionalArg found listed optionalExp => by
      rcases portable_append.1 portable with ⟨argOk, expOk⟩
      have readArg := readOptional_of_optional arg argOk .arg optionalArg
      have readExp := readOptional_of_optional exp expOk .exp optionalExp
      simp [readProp, kindOf_eq_ok type, readDirective, requireText_eq_ok named, readArg,
        readModifiers_of_listed found listed, readExp]

theorem readOptional_of_optional : (node : Option Node) → Portable (optionalRootAttrs node) →
    {members : Members} → {key : String} → (step : Step) →
    Optional Encodes node (members.get? key) → readOptional members key step = .ok node
  | none, _, _, _, step, absent => readOptional_eq_none absent step
  | some node, portable, members, key, step, present => by
      generalize found : members.get? key = held at present
      cases present with
      | present encodes =>
          have read := readNode_of_encodes node portable encodes
          exact readOptional_eq_some found encodes.ne_null read step

theorem readNodes_of_listed : (nodes : List Node) → Portable (rootAttrsAll nodes) →
    {values : List Value} → Listed Encodes nodes values → (index : Nat) →
    readNodes index values = .ok nodes
  | [], _, _, .nil, _ => by simp [readNodes]
  | node :: nodes, portable, _, .cons encodes listed, index => by
      rcases portable_append.1 portable with ⟨nodeOk, nodesOk⟩
      have head := readNode_of_encodes node nodeOk encodes
      have tail := readNodes_of_listed nodes nodesOk listed (index + 1)
      simp [readNodes, head, tail]

theorem readPropList_of_listed : (props : List Property) → Portable (propRootAttrsAll props) →
    {values : List Value} → Listed EncodesProp props values → (index : Nat) →
    readPropList index values = .ok props
  | [], _, _, .nil, _ => by simp [readPropList]
  | property :: props, portable, _, .cons encodes listed, index => by
      rcases portable_append.1 portable with ⟨propertyOk, propsOk⟩
      have head := readProp_of_encodes property propertyOk encodes
      have tail := readPropList_of_listed props propsOk listed (index + 1)
      simp [readPropList, head, tail]

end

end SingleFile.Compiler
