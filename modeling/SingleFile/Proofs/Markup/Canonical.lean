import SingleFile.Proofs.Markup.RoundTrip

/-!
# Canonical forests

A canonical forest is one in which no part can be taken for something else
wherever it is written: its texts hold no `<` and no braces that could open an
interpolation, names hold no character that ends them, and values no double
quote. The conditions are on single tokens, so that a canonical forest stays
canonical in any surroundings.

Main statement: `Forest.read_join_render`, printing the nodes of a canonical
forest one after the other and reading the result gives the forest.
-/

namespace SingleFile.Markup

open SingleFile.Text

namespace Property

/-- Characters that neither end a name nor open a bracket in it. -/
def isPlainChar (c : Char) : Bool :=
  !(isTagBlank c || c = '=' || c = '>' || c = '/' || c = '"' || c = '\'' || c = '[')

/-- A plain text between the dots of a directive's name. -/
def IsSegment (text : String) : Prop :=
  text ≠ "" ∧ ∀ c ∈ text.toList, c ≠ '.' ∧ isPlainChar c = true

end Property

namespace Node

/-- A plain argument is a segment of the name; in brackets everything but `]` may stand. -/
def IsCanonicalArgument (node : Node) : Prop :=
  match node with
  | .expression content true => Property.IsSegment content
  | .expression content false => ']' ∉ content.toList
  | _ => False

/-- An attribute's value is text without a double quote. -/
def IsCanonicalValue (node : Node) : Prop :=
  match node with
  | .text content => '"' ∉ content.toList
  | _ => False

/-- A directive's expression is not empty and holds no double quote. -/
def IsCanonicalBinding (node : Node) : Prop :=
  match node with
  | .expression content false => content ≠ "" ∧ '"' ∉ content.toList
  | _ => False

end Node

namespace Property

/-- A property whose written form is read back after any other. -/
def Canonical : Property → Prop
  | .attribute name value =>
    name ≠ "" ∧ isDirective name.toList = false ∧ (∀ c ∈ name.toList, isPlainChar c = true) ∧
      ∀ node ∈ value, node.IsCanonicalValue
  | .directive name arg modifiers exp =>
    name ≠ "" ∧ (∀ c ∈ name.toList, DirectiveName.isNameChar c = true) ∧
      (∀ node ∈ arg, node.IsCanonicalArgument) ∧ (∀ modifier ∈ modifiers, IsSegment modifier) ∧
      ∀ node ∈ exp, node.IsCanonicalBinding

/-- A property that can be written in an opening tag, as far as its name goes: nothing in
the name ends it early. Its value may be any text, but an expression is not empty. -/
def Writable : Property → Prop
  | .attribute name value =>
    name ≠ "" ∧ isDirective name.toList = false ∧ (∀ c ∈ name.toList, isPlainChar c = true) ∧
      ∀ node ∈ value, node.isText = true
  | .directive name arg modifiers exp =>
    name ≠ "" ∧ (∀ c ∈ name.toList, DirectiveName.isNameChar c = true) ∧
      (∀ node ∈ arg, node.IsCanonicalArgument) ∧ (∀ modifier ∈ modifiers, IsSegment modifier) ∧
      ∀ node ∈ exp, node.IsBinding

end Property

/-- A token that is not taken for something else wherever it is written. -/
def Token.Canonical : Token → Prop
  | .comment content => ¬ "-->".toList <:+: content.toList
  | .closeTag tag => IsTagName tag
  | .openTag tag props _ => IsTagName tag ∧ ∀ property ∈ props, property.Canonical
  | .interpolation content =>
    trim content.toList = content.toList ∧ ¬ closeBraces <:+: content.toList
  | .text content =>
    content ≠ "" ∧ '<' ∉ content.toList ∧ ¬ openBraces <:+: content.toList ∧
      content.toList.getLast? ≠ some '\x7b'

/-- A forest that is read back wherever it is written. -/
def Forest.Canonical (forest : List Node) : Prop := Forest.Formed Token.Canonical forest

/-! Whether a forest is canonical can be computed. -/

instance (text : String) : Decidable (Property.IsSegment text) :=
  inferInstanceAs (Decidable (_ ∧ _))

instance : (node : Node) → Decidable node.IsCanonicalArgument
  | .expression content true => inferInstanceAs (Decidable (Property.IsSegment content))
  | .expression content false => inferInstanceAs (Decidable (']' ∉ content.toList))
  | .root .. | .element .. | .text _ | .comment _ | .interpolation _ | .property _ => isFalse id

instance : (node : Node) → Decidable node.IsCanonicalValue
  | .text content => inferInstanceAs (Decidable ('"' ∉ content.toList))
  | .root .. | .element .. | .expression .. | .comment _ | .interpolation _ | .property _ =>
    isFalse id

instance : (node : Node) → Decidable node.IsCanonicalBinding
  | .expression content false => inferInstanceAs (Decidable (content ≠ "" ∧ '"' ∉ content.toList))
  | .expression _ true | .root .. | .element .. | .text _ | .comment _ | .interpolation _
  | .property _ => isFalse id

instance : (property : Property) → Decidable property.Canonical
  | .attribute .. | .directive .. => inferInstanceAs (Decidable (_ ∧ _))

instance : (node : Node) → Decidable node.IsBinding
  | .expression content isStatic =>
    inferInstanceAs (Decidable (isStatic = false ∧ content ≠ ""))
  | .root .. | .element .. | .text _ | .comment _ | .interpolation _ | .property _ => isFalse id

instance : (property : Property) → Decidable property.Writable
  | .attribute .. | .directive .. => inferInstanceAs (Decidable (_ ∧ _))

instance : DecidablePred Token.Canonical
  | .comment _ => inferInstanceAs (Decidable (¬ _))
  | .closeTag tag => inferInstanceAs (Decidable (IsTagName tag))
  | .openTag .. | .interpolation _ | .text _ => inferInstanceAs (Decidable (_ ∧ _))

instance (forest : List Node) : Decidable (Forest.Canonical forest) :=
  Forest.decidableFormed forest

/-! ## Canonical parts are well formed -/

theorem Property.writable_of_canonical : (property : Property) → property.Canonical →
    property.Writable
  | .attribute name value, ⟨named, plain, chars, values⟩ => by
      refine ⟨named, plain, chars, ?_⟩
      intro node present
      have ok := values node present
      cases node with
      | text content => rfl
      | _ => exact ok.elim
  | .directive name arg modifiers exp, ⟨named, chars, args, segments, exps⟩ => by
      refine ⟨named, chars, args, segments, ?_⟩
      intro node present
      have ok := exps node present
      cases node with
      | expression content isStatic =>
          cases isStatic with
          | true => exact ok.elim
          | false => exact ⟨rfl, ok.1⟩
      | _ => exact ok.elim

theorem Property.wellFormed_of_writable : (property : Property) → property.Writable →
    property.WellFormed
  | .attribute name value, ⟨named, plain, chars, values⟩ => by
      refine ⟨named, ?_, plain, values⟩
      intro head
      have slash := chars '/' (List.mem_of_mem_head? head)
      exact absurd slash (by decide)
  | .directive name arg modifiers exp, ⟨named, chars, args, segments, exps⟩ => by
      refine ⟨named, chars, ?_, ?_, exps⟩
      · intro node present
        have ok := args node present
        cases node with
        | expression content isStatic =>
            cases isStatic with
            | true =>
                refine ⟨ok.1, fun dot => (ok.2 '.' dot).1 rfl, ?_⟩
                intro head
                have bracket := (ok.2 '[' (List.mem_of_mem_head? head)).2
                exact absurd bracket (by decide)
            | false => exact ok
        | _ => exact ok.elim
      · intro modifier member
        have ok := segments modifier member
        exact ⟨ok.1, fun dot => (ok.2 '.' dot).1 rfl⟩

theorem Property.wellFormed_of_canonical (property : Property) (canonical : property.Canonical) :
    property.WellFormed :=
  property.wellFormed_of_writable (property.writable_of_canonical canonical)

theorem Property.quoteFree_of_canonical : (property : Property) → property.Canonical →
    property.QuoteFree
  | .attribute name value, ⟨_, _, _, values⟩, bound, present => by
      rcases Option.bind_eq_some_iff.1 present with ⟨node, isValue, plain⟩
      have ok := values node isValue
      cases node with
      | text content =>
          cases plain
          exact ok
      | _ => exact ok.elim
  | .directive name arg modifiers exp, ⟨_, _, _, _, exps⟩, bound, present => by
      rcases Option.bind_eq_some_iff.1 present with ⟨node, isExp, plain⟩
      have ok := exps node isExp
      cases node with
      | expression content isStatic =>
          cases isStatic with
          | true => exact ok.elim
          | false =>
              cases plain
              exact ok.2
      | _ => exact ok.elim

theorem Token.wellFormed_of_canonical : (token : Token) → token.Canonical → token.WellFormed
  | .comment _, ok => ok
  | .closeTag _, ok => ok
  | .openTag _ _ _, ⟨named, props⟩ =>
      ⟨named, fun property member => property.wellFormed_of_canonical (props property member)⟩
  | .interpolation _, ok => ok
  | .text _, ok => ok.1

theorem Token.quoteFree_of_canonical : (token : Token) → token.Canonical → token.QuoteFree
  | .openTag _ _ _, ⟨_, props⟩ =>
      fun property member => property.quoteFree_of_canonical (props property member)
  | .comment _, _ | .closeTag _, _ | .interpolation _, _ | .text _, _ => trivial

/-! ## Canonical parts are legible -/

namespace Property

/-- Reading a name goes through this text and on to what follows it. -/
def Passed (text : List Char) : Prop :=
  ∀ rest, readName false (text ++ rest) =
    (text ++ (readName false rest).1, (readName false rest).2)

theorem Passed.append {front back : List Char} (frontOk : Passed front) (backOk : Passed back) :
    Passed (front ++ back) := by
  intro rest
  rw [List.append_assoc, frontOk, backOk, List.append_assoc]

theorem passed_of_plain {text : List Char} (plain : ∀ c ∈ text, isPlainChar c = true) :
    Passed text := by
  intro rest
  induction text with
  | nil => rfl
  | cons c text ih =>
      have later := ih fun d member => plain d (by simp [member])
      have here := plain c (by simp)
      simp only [isPlainChar, Bool.not_eq_true', Bool.or_eq_false_iff, decide_eq_false_iff_not]
        at here
      rcases here with ⟨⟨⟨⟨⟨⟨unblank, unequal⟩, unclosing⟩, unslashed⟩, double⟩, single⟩, bracket⟩
      have goesOn (tail : List Char) : endsName c tail = false := by
        simp [endsName, unblank, unequal, unclosing, unslashed, double, single]
      simp [readName, goesOn, bracket, later]

theorem passed_of_bracketed {text : List Char} (unclosed : ']' ∉ text) :
    Passed ('[' :: (text ++ [']'])) := by
  intro rest
  have inside : readName true (text ++ ']' :: rest) =
      (text ++ ']' :: (readName false rest).1, (readName false rest).2) := by
    induction text with
    | nil => simp [readName]
    | cons c text ih =>
        have later := ih fun member => unclosed (by simp [member])
        have other : c ≠ ']' := by
          rintro rfl
          exact unclosed (by simp)
        simp [readName, other, later]
  simp [readName, endsName, isTagBlank, inside]

theorem isPlainChar_of_isNameChar {c : Char} (nameChar : DirectiveName.isNameChar c = true) :
    isPlainChar c = true := by
  simp only [isPlainChar, isTagBlank, Bool.not_eq_true', Bool.or_eq_false_iff,
    decide_eq_false_iff_not]
  refine ⟨⟨⟨⟨⟨⟨⟨⟨⟨⟨?_, ?_⟩, ?_⟩, ?_⟩, ?_⟩, ?_⟩, ?_⟩, ?_⟩, ?_⟩, ?_⟩, ?_⟩ <;>
    (rintro rfl; exact absurd nameChar (by decide))

theorem IsSegment.passed {text : String} (segment : IsSegment text) : Passed text.toList :=
  passed_of_plain fun c member => (segment.2 c member).2

theorem passed_writtenModifiers {modifiers : List String}
    (segments : ∀ modifier ∈ modifiers, IsSegment modifier) :
    Passed (DirectiveName.writtenModifiers modifiers) := by
  induction modifiers with
  | nil => exact fun rest => rfl
  | cons modifier modifiers ih =>
      have dot : Passed ['.'] := passed_of_plain (by decide)
      have later := ih fun other member => segments other (by simp [member])
      have here := (dot.append (segments modifier (by simp)).passed).append later
      simpa [DirectiveName.writtenModifiers] using here

/-- Reading a name goes through the whole written name of a property. -/
theorem passed_writtenName : (property : Property) → property.Writable →
    Passed property.writtenName
  | .attribute name value, ⟨_, _, plain, _⟩ => passed_of_plain plain
  | .directive name arg modifiers exp, ⟨_, nameOk, args, segments, _⟩ => by
      have lead : Passed ['v', '-'] := passed_of_plain (by decide)
      have named : Passed name.toList := passed_of_plain fun c member =>
        isPlainChar_of_isNameChar (nameOk c member)
      have colon : Passed [':'] := passed_of_plain (by decide)
      have argument : Passed (((arg.bind Node.argument?).map Argument.written).getD []) := by
        cases arg with
        | none => exact fun rest => rfl
        | some node =>
            have ok := args node rfl
            cases node with
            | expression content isStatic =>
                cases isStatic with
                | true => exact colon.append (IsSegment.passed ok)
                | false => exact colon.append (passed_of_bracketed ok)
            | _ => exact ok.elim
      have whole := (lead.append named).append (argument.append (passed_writtenModifiers segments))
      simpa [writtenName, DirectiveName.written, DirectiveName.writtenTail] using whole

/-- Canonical properties have names that end where they are written to end. -/
theorem namesWhole_of_canonical (selfClosing : Bool) {props : List Property}
    (canonical : ∀ property ∈ props, property.Canonical) : NamesWhole selfClosing props := by
  induction props with
  | nil => trivial
  | cons property props ih =>
      refine ⟨?_, ih fun other member => canonical other (by simp [member])⟩
      rcases head_following property.bound? props selfClosing with ⟨next, tail, ends, shape⟩
      have stops : readName false (next :: tail) = ([], next :: tail) := by
        rcases ends with rfl | rfl | rfl <;> rfl
      have passed := passed_writtenName property
        (property.writable_of_canonical (canonical property (by simp)))
      simp only [shape, passed (next :: tail), stops, List.append_nil]

end Property

namespace Token

/-- Where a text has no `<` and no two braces that open an interpolation, no markup
begins in it, whatever follows. -/
theorem unmarked_of_plain {content : List Char} (following : List Char)
    (unmarked : '<' ∉ content) (unbraced : ¬ openBraces <:+: content)
    (last : content.getLast? ≠ some '\x7b') : Unmarked following content := by
  induction content with
  | nil => trivial
  | cons c content ih =>
      have other : c ≠ '<' := by
        rintro rfl
        exact unmarked (by simp)
      have brace : c = '\x7b' → ∀ d ∈ (content ++ following).head?, d ≠ '\x7b' := by
        rintro rfl d head rfl
        cases content with
        | nil => exact last rfl
        | cons e content =>
            simp only [List.cons_append, List.head?_cons, Option.mem_some_iff] at head
            exact unbraced ⟨[], content, by simp [openBraces, head]⟩
      constructor
      · unfold startsMarkup
        split
        next shape => simp_all
        next shape => simp_all
        next shape => simp_all
        next shape =>
          simp only [List.cons.injEq] at shape
          rw [shape.2] at brace
          exact absurd rfl (brace shape.1 _ rfl)
        next => rfl
      · apply ih
        · exact fun member => unmarked (by simp [member])
        · exact fun inside => unbraced (inside.trans (List.suffix_cons c content).isInfix)
        · cases content with
          | nil => simp
          | cons e content => simpa using last

/-- In a canonical text nothing is taken for markup, whatever follows. -/
theorem stands_of_canonical {content : String} (canonical : (Token.text content).Canonical)
    (following : List Char) : Stands content.toList following := by
  rcases canonical with ⟨proper, unmarked, unbraced, last⟩
  refine ⟨?_, unmarked_of_plain following unmarked unbraced last⟩
  cases chars : content.toList with
  | nil => exact absurd (String.toList_eq_nil_iff.1 chars) proper
  | cons c run =>
      have other : c ≠ '<' := by
        rintro rfl
        exact unmarked (by simp [chars])
      exact closeTag?_cons other (run ++ following)

/-- A canonical token can stand anywhere. -/
theorem placed_of_canonical {token : Token} (canonical : token.Canonical)
    (following : List Char) : token.Placed following := by
  cases token with
  | text content => exact stands_of_canonical canonical following
  | openTag tag props selfClosing =>
      exact Property.namesWhole_of_canonical selfClosing canonical.2
  | _ => trivial

theorem legible_of_canonical {tokens : List Token}
    (canonical : ∀ token ∈ tokens, token.Canonical) : Legible tokens := by
  induction tokens with
  | nil => trivial
  | cons token tokens ih =>
      exact ⟨placed_of_canonical (canonical token (by simp)) _,
        ih fun other member => canonical other (by simp [member])⟩

end Token

namespace Forest

theorem Canonical.token {forest : List Node} (canonical : Canonical forest) :
    ∀ token ∈ tokens forest, token.Canonical :=
  good_of_mem_tokens (fun _ _ _ ok => ok.1) forest canonical

theorem Canonical.wellFormed {forest : List Node} (canonical : Canonical forest) :
    Formed Token.WellFormed forest :=
  Formed.of_tokens forest canonical fun token member =>
    token.wellFormed_of_canonical (canonical.token token member)

theorem Canonical.printable {forest : List Node} (canonical : Canonical forest) :
    Printable forest where
  formed := canonical.wellFormed
  quoteFree token member := token.quoteFree_of_canonical (canonical.token token member)
  legible := Token.legible_of_canonical canonical.token

/-- Printing nodes one by one gives the text of their tokens. -/
theorem mapM_render_eq {forest : List Node} (formed : Formed Token.WellFormed forest) :
    ∃ texts, forest.mapM Node.render = .ok texts ∧
      String.join texts = String.ofList (Token.writtenAll (tokens forest)) := by
  induction forest with
  | nil => exact ⟨[], rfl, rfl⟩
  | cons node nodes ih =>
      rcases ih formed.2.2 with ⟨texts, printed, joined⟩
      refine ⟨String.ofList (Token.writtenAll node.tokens) :: texts, ?_, ?_⟩
      · rw [List.mapM_cons, Node.render_eq node formed.1, printed]
        rfl
      · rw [String.join_cons, joined, tokens, Token.writtenAll_append, String.ofList_append]

/-- The nodes of a canonical forest, printed one after the other, are read as this
forest. -/
theorem read_join_render (forest : List Node) (canonical : Canonical forest) :
    ∃ texts, forest.mapM Node.render = .ok texts ∧ read (String.join texts) = forest := by
  rcases mapM_render_eq canonical.wellFormed with ⟨texts, printed, joined⟩
  exact ⟨texts, printed, by rw [joined, canonical.printable.read_writtenAll]⟩

theorem read_join_render_sample :
    let forest : List Node :=
      [.text "\x7b \x7d ",
        .element "p"
          [.attribute "class" (some (.text "a b")), .attribute "v-" none,
            .directive "on" (some (.expression "k>=\"x\"" false)) ["stop"]
              (some (.expression "f" false))]
          [.interpolation (.expression "x < y" false), .element "br" [] [] false,
            .element "p" [] [.text "1 > 0"] false, .element "p" [] [] true, .comment "-"]
          false]
    Canonical forest ∧ ∃ texts, forest.mapM Node.render = .ok texts ∧
      read (String.join texts) = forest := by
  intro forest
  have canonical : Canonical forest := by decide +kernel
  exact ⟨canonical, read_join_render forest canonical⟩

end Forest

end SingleFile.Markup
