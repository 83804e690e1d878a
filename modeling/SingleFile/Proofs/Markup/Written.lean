import SingleFile.Markup.Forest
import SingleFile.Markup.Printer
import SingleFile.Proofs.Markup.DirectiveName

/-!
# Trees as sequences of tokens

Printing a forest and reading it meet at its tokens: `Forest.tokens` lists the
tokens of a forest in the order in which they are written, and `Token.written`
is the text of one token. What a forest has to look like for this is described
by `Forest.Formed`, which takes the conditions on the single tokens as a
parameter; `Token.WellFormed` are those that hold of every forest read from text.

Main statement: `Forest.renderChildren_eq`, a forest with well-formed tokens is
printed as the text of its tokens.
-/

namespace SingleFile.Markup

open SingleFile.Text

namespace Node

/-- Whether a node is text. -/
def isText : Node → Bool
  | .text _ => true
  | _ => false

/-- The text of a node that is text or an expression. -/
def plain? : Node → Option (List Char)
  | .text content | .expression content _ => some content.toList
  | _ => none

/-- The node as a directive's argument. -/
def argument? : Node → Option Argument
  | .expression content isStatic => some ⟨content, isStatic⟩
  | _ => none

/-- A directive's argument is an expression whose text can be written as one. -/
def IsArgument (node : Node) : Prop :=
  match node with
  | .expression content isStatic => (⟨content, isStatic⟩ : Argument).WellFormed
  | _ => False

/-- An expression that is evaluated and not empty. -/
def IsBinding (node : Node) : Prop :=
  match node with
  | .expression content isStatic => isStatic = false ∧ content ≠ ""
  | _ => False

theorem exists_of_isText {node : Node} (isText : node.isText = true) :
    ∃ content, node = .text content := by
  cases node with
  | text content => exact ⟨content, rfl⟩
  | _ => simp [Node.isText] at isText

theorem IsArgument.exists_argument {node : Node} (isArgument : node.IsArgument) :
    ∃ arg : Argument, node = arg.toNode ∧ arg.WellFormed := by
  cases node with
  | expression content isStatic => exact ⟨⟨content, isStatic⟩, rfl, isArgument⟩
  | _ => simp [IsArgument] at isArgument

theorem IsBinding.exists_content {node : Node} (isBinding : node.IsBinding) :
    ∃ content, node = .expression content false ∧ content ≠ "" := by
  cases node with
  | expression content isStatic =>
      obtain ⟨rfl, proper⟩ := isBinding
      exact ⟨content, rfl, proper⟩
  | _ => simp [IsBinding] at isBinding

end Node

namespace Property

/-- A property's name as it is written; a directive's is explicit. -/
def writtenName : Property → List Char
  | .attribute name _ => name.toList
  | .directive name arg modifiers _ =>
    DirectiveName.written ⟨name, arg.bind Node.argument?, modifiers⟩

/-- The value or expression of a property. -/
def bound? : Property → Option (List Char)
  | .attribute _ value => value.bind Node.plain?
  | .directive _ _ _ exp => exp.bind Node.plain?

/-- A property as it is written, without the space before it. -/
def written (property : Property) : List Char :=
  property.writtenName ++ writtenBinding property.bound?

/-- What holds of every property of an opening tag. -/
def WellFormed : Property → Prop
  | .attribute name value =>
    name ≠ "" ∧ name.toList.head? ≠ some '/' ∧ isDirective name.toList = false ∧
      ∀ node ∈ value, node.isText = true
  | .directive name arg modifiers exp =>
    name ≠ "" ∧ (∀ c ∈ name.toList, DirectiveName.isNameChar c = true) ∧
      (∀ node ∈ arg, node.IsArgument) ∧
      (∀ modifier ∈ modifiers, modifier ≠ "" ∧ '.' ∉ modifier.toList) ∧
      ∀ node ∈ exp, node.IsBinding

/-- Properties as they follow the name of a tag. -/
def writtenAll (props : List Property) : List Char :=
  props.flatMap fun property => ' ' :: property.written

end Property

/-- The name of a tag: a letter, then letters, digits and `_`, `-`, `.` or `:`. -/
def IsTagName (tag : String) : Prop :=
  tag.toList.head?.any Char.isAlpha = true ∧ ∀ c ∈ tag.toList, isTagChar c = true

instance (tag : String) : Decidable (IsTagName tag) := inferInstanceAs (Decidable (_ ∧ _))

namespace Token

/-- The end of an opening tag. -/
def writtenEnd (selfClosing : Bool) : List Char :=
  if selfClosing then " />".toList else ">".toList

/-- The text of a token. -/
def written : Token → List Char
  | .comment content => "<!--".toList ++ (content.toList ++ "-->".toList)
  | .closeTag tag => '<' :: '/' :: (tag.toList ++ ['>'])
  | .openTag tag props selfClosing =>
    '<' :: (tag.toList ++ (Property.writtenAll props ++ writtenEnd selfClosing))
  | .interpolation content => openBraces ++ ' ' :: (content.toList ++ ' ' :: closeBraces)
  | .text content => content.toList

/-- The text of tokens one after the other. -/
def writtenAll (tokens : List Token) : List Char := tokens.flatMap written

/-- What holds of every token of a forest that is read from text. -/
def WellFormed : Token → Prop
  | .comment content => ¬ "-->".toList <:+: content.toList
  | .closeTag tag => IsTagName tag
  | .openTag tag props _ => IsTagName tag ∧ ∀ property ∈ props, property.WellFormed
  | .interpolation content =>
    trim content.toList = content.toList ∧ ¬ closeBraces <:+: content.toList
  | .text content => content ≠ ""

@[simp] theorem writtenAll_nil : writtenAll [] = [] := rfl

@[simp] theorem writtenAll_cons (token : Token) (tokens : List Token) :
    writtenAll (token :: tokens) = token.written ++ writtenAll tokens := rfl

@[simp] theorem writtenAll_append (front back : List Token) :
    writtenAll (front ++ back) = writtenAll front ++ writtenAll back := by
  simp [writtenAll]

end Token

mutual

/-- The tokens of a node, in the order in which they are written. -/
def Node.tokens : Node → List Token
  | .element tag props children selfClosing =>
    .openTag tag props selfClosing ::
      if selfClosing then [] else Forest.tokens children ++ [.closeTag tag]
  | .text content => [.text content]
  | .comment content => [.comment content]
  | .interpolation (.expression content _) => [.interpolation content]
  | _ => []

/-- The tokens of a forest, in the order in which they are written. -/
def Forest.tokens : List Node → List Token
  | [] => []
  | node :: nodes => node.tokens ++ Forest.tokens nodes

end

mutual

/-- A node that template text can describe, with `good` tokens: an element, a text, a
comment or an interpolation. Elements that close themselves or have no content by
their tag have no children. -/
def Node.Formed (good : Token → Prop) : Node → Prop
  | .element tag props children selfClosing =>
    good (.openTag tag props selfClosing) ∧
      (selfClosing = true ∨ tag ∈ voidTags → children = []) ∧ Forest.Formed good children
  | .text content => good (.text content)
  | .comment content => good (.comment content)
  | .interpolation (.expression content false) => good (.interpolation content)
  | _ => False

/-- Siblings that template text can describe: no text follows a text directly. -/
def Forest.Formed (good : Token → Prop) : List Node → Prop
  | [] => True
  | node :: nodes =>
    node.Formed good ∧ (node.isText = true → ∀ next ∈ nodes.head?, next.isText = false) ∧
      Forest.Formed good nodes

end

mutual

/-- Whether a node is formed can be decided when the tokens can. -/
def Node.decidableFormed {good : Token → Prop} [DecidablePred good] :
    (node : Node) → Decidable (node.Formed good)
  | .element tag props children selfClosing =>
    have := @Forest.decidableFormed good _ children
    inferInstanceAs (Decidable (good (.openTag tag props selfClosing) ∧ _ ∧ _))
  | .text content => inferInstanceAs (Decidable (good (.text content)))
  | .comment content => inferInstanceAs (Decidable (good (.comment content)))
  | .interpolation (.expression content false) =>
    inferInstanceAs (Decidable (good (.interpolation content)))
  | .interpolation (.expression _ true) | .interpolation (.root ..) | .interpolation (.element ..)
  | .interpolation (.text _) | .interpolation (.comment _) | .interpolation (.interpolation _)
  | .interpolation (.property _) | .root .. | .expression .. | .property _ => isFalse id

@[inherit_doc Node.decidableFormed]
def Forest.decidableFormed {good : Token → Prop} [DecidablePred good] :
    (forest : List Node) → Decidable (Forest.Formed good forest)
  | [] => isTrue trivial
  | node :: nodes =>
    have := @Node.decidableFormed good _ node
    have := @Forest.decidableFormed good _ nodes
    inferInstanceAs (Decidable (node.Formed good ∧ _ ∧ _))

end

/-! ## Printing -/

@[simp] theorem within_ok (step : Step) (text : String) : within step (.ok text) = .ok text := rfl

/-- A printed text is known by its characters. -/
theorem ok_eq_ofList {text : String} {chars : List Char} (equal : text.toList = chars) :
    (.ok text : Except ArgumentError String) = .ok (String.ofList chars) := by
  rw [← equal, String.ofList_toList]

theorem renderArgument_toNode (arg : Argument) :
    renderArgument (some arg.toNode) = .ok (String.ofList arg.written) := by
  cases arg with
  | mk content isStatic =>
      cases isStatic with
      | true | false =>
          apply ok_eq_ofList
          simp [Argument.written]

theorem renderArgument_eq {arg : Option Node} (allowed : ∀ node ∈ arg, node.IsArgument) :
    renderArgument arg =
      .ok (String.ofList (((arg.bind Node.argument?).map Argument.written).getD [])) := by
  cases arg with
  | none => rfl
  | some node =>
      obtain ⟨arg, rfl, -⟩ := (allowed node rfl).exists_argument
      exact renderArgument_toNode arg

theorem renderModifiers_eq (modifiers : List String) :
    renderModifiers modifiers = String.ofList (DirectiveName.writtenModifiers modifiers) := by
  induction modifiers with
  | nil => rfl
  | cons modifier modifiers ih =>
      apply String.toList_inj.1
      simp [renderModifiers, ih, DirectiveName.writtenModifiers]

theorem renderQuoted_eq (step : Step) {value : Option Node}
    (plain : ∀ node ∈ value, node.isText = true ∨ node.IsBinding) :
    renderQuoted step value =
      .ok (String.ofList (writtenBinding (value.bind Node.plain?))) := by
  cases value with
  | none => rfl
  | some node =>
      rcases plain node rfl with isText | isBinding
      · obtain ⟨content, rfl⟩ := Node.exists_of_isText isText
        apply ok_eq_ofList
        simp [Node.plain?, writtenBinding]
      · obtain ⟨content, rfl, -⟩ := isBinding.exists_content
        apply ok_eq_ofList
        simp [Node.plain?, writtenBinding]

/-- A well-formed property is printed as it is written in a tag. -/
theorem Property.render_eq : (property : Property) → property.WellFormed →
    property.render = .ok (String.ofList property.written)
  | .attribute name value, ⟨_, _, _, values⟩ => by
      have quoted := renderQuoted_eq .value fun node member => .inl (values node member)
      rw [Property.render, quoted]
      apply ok_eq_ofList
      simp [Property.written, Property.writtenName, Property.bound?]
  | .directive name arg modifiers exp, ⟨_, _, args, _, exps⟩ => by
      have quoted := renderQuoted_eq .exp fun node member => .inr (exps node member)
      rw [Property.render, renderArgument_eq args, quoted]
      apply ok_eq_ofList
      simp [Property.written, Property.writtenName, Property.bound?, renderModifiers_eq,
        DirectiveName.written, DirectiveName.writtenTail]

theorem renderProps_eq (index : Nat) {props : List Property}
    (wellFormed : ∀ property ∈ props, property.WellFormed) :
    renderProps index props = .ok (String.ofList (Property.writtenAll props)) := by
  induction props generalizing index with
  | nil => rfl
  | cons property props ih =>
      have later := ih (index + 1) fun other member => wellFormed other (by simp [member])
      rw [renderProps, Property.render_eq property (wellFormed property (by simp)), later]
      apply ok_eq_ofList
      simp [Property.writtenAll]

mutual

/-- A node with well-formed tokens is printed as the text of its tokens. -/
theorem Node.render_eq : (node : Node) → node.Formed Token.WellFormed →
    node.render = .ok (String.ofList (Token.writtenAll node.tokens))
  | .element tag props children selfClosing, formed => by
      obtain ⟨⟨-, propsOk⟩, -, childrenOk⟩ := formed
      have inner := Forest.renderChildren_eq 0 children childrenOk
      rw [Node.render, renderProps_eq 0 propsOk, inner]
      cases selfClosing with
      | true =>
        apply ok_eq_ofList
        simp [Node.tokens, Token.written, Token.writtenEnd]
      | false =>
        apply ok_eq_ofList
        simp [Node.tokens, Token.written, Token.writtenEnd]
  | .text content, _ => by
      apply ok_eq_ofList
      simp [Node.tokens, Token.written]
  | .comment content, _ => by
      apply ok_eq_ofList
      simp [Node.tokens, Token.written]
  | .interpolation (.expression content false), _ => by
      apply ok_eq_ofList
      simp [Node.tokens, Token.written, openBraces, closeBraces]

/-- A forest with well-formed tokens is printed as the text of its tokens. -/
theorem Forest.renderChildren_eq (index : Nat) : (forest : List Node) →
    Forest.Formed Token.WellFormed forest →
    renderChildren index forest = .ok (String.ofList (Token.writtenAll (Forest.tokens forest)))
  | [], _ => rfl
  | node :: nodes, formed => by
      obtain ⟨nodeOk, -, nodesOk⟩ := formed
      rw [renderChildren, Node.render_eq node nodeOk,
        Forest.renderChildren_eq (index + 1) nodes nodesOk]
      apply ok_eq_ofList
      simp [Forest.tokens]

end

end SingleFile.Markup
