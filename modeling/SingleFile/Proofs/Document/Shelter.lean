import SingleFile.Proofs.Block.Balanced
import SingleFile.Proofs.Markup.RoundTrip
import SingleFile.Proofs.Markup.WholeNames

/-!
# Forests as the content of a template

The end of a template's content is found without reading the markup in it, and the
two disagree in places: names of tags go on at `.` and `:` in markup only, and
values and interpolations are opaque in markup only. `Token.Sheltered` excludes
these places. The text of a forest with sheltered tokens is balanced, so that the
content ends behind it.

Main statement: `Forest.balanced_writtenAll`.
-/

namespace SingleFile.Markup

open SingleFile.Text
open SingleFile.Block (Balanced Inert TagText)

namespace Property

/-- Nothing in the property is taken for a comment or for a tag of a template. -/
def Inert (property : Property) : Prop :=
  Block.Inert property.writtenName ∧ ∀ value ∈ property.bound?, Block.Inert value

/-- The name of a property, when it does not end an opening tag that is read without its
properties, nor begins a quoted string there. -/
def NamePlain (property : Property) : Prop :=
  ∀ c ∈ property.writtenName, c ≠ '"' ∧ c ≠ '\'' ∧ c ≠ '>'

end Property

namespace Token

/-- A token in which the end of the content is not mistaken. The properties of a nested
template must not end its tag early; in all other tags nothing may be taken for a
comment or for a tag of a template, beginning with the tag's name. -/
def Sheltered : Token → Prop
  | .openTag tag props _ =>
    if tag = "template" then ∀ property ∈ props, property.NamePlain
    else Block.opensName "template".toList tag.toList = false ∧ ∀ property ∈ props, property.Inert
  | .interpolation content => Inert content.toList
  | .comment _ | .closeTag _ | .text _ => True

/-- A token of which the text is passed over whole in the search for the end of the
content. -/
structure Passable (token : Token) : Prop where
  wellFormed : token.WellFormed
  quoteFree : token.QuoteFree
  sheltered : token.Sheltered
  placed : ∃ following, token.Placed following

theorem exists_placed_of_mem {tokens : List Token} (legible : Legible tokens) :
    ∀ token ∈ tokens, ∃ following, token.Placed following := by
  induction tokens with
  | nil => simp
  | cons token tokens ih => exact List.forall_mem_cons.2 ⟨⟨_, legible.1⟩, ih legible.2⟩

end Token

/-! Whether a token is sheltered can be computed. -/

instance (property : Property) : Decidable property.NamePlain :=
  inferInstanceAs (Decidable (∀ c ∈ property.writtenName, _))

instance (property : Property) : Decidable property.Inert := inferInstanceAs (Decidable (_ ∧ _))

instance : (token : Token) → Decidable token.Sheltered
  | .openTag tag props _ =>
    inferInstanceAs (Decidable (if tag = "template" then ∀ property ∈ props, property.NamePlain
      else Block.opensName "template".toList tag.toList = false ∧
        ∀ property ∈ props, property.Inert))
  | .interpolation content => inferInstanceAs (Decidable (Inert content.toList))
  | .comment _ | .closeTag _ | .text _ => isTrue trivial

/-! ## Tags of nested templates -/

namespace Property

/-- The text of properties does not end a nested template's opening tag. -/
theorem tagText_writtenAll {props : List Property}
    (plain : ∀ property ∈ props, property.NamePlain)
    (quoteFree : ∀ property ∈ props, property.QuoteFree) : TagText (writtenAll props) := by
  induction props with
  | nil => exact .nil
  | cons property props ih =>
      rcases List.forall_mem_cons.1 plain with ⟨namePlain, plain⟩
      rcases List.forall_mem_cons.1 quoteFree with ⟨unquoted, quoteFree⟩
      have later := ih plain quoteFree
      have name := Block.tagText_of_plain namePlain
      have bound : TagText (writtenBinding property.bound?) := by
        cases present : property.bound? with
        | none => exact .nil
        | some value =>
            have quoted : TagText ('"' :: (value ++ '"' :: [])) :=
              .quoted (.inl rfl) (unquoted value present) .nil
            exact .char (by decide) (by decide) (by decide) quoted
      have whole : TagText (' ' :: (property.writtenName ++ (writtenBinding property.bound? ++
          writtenAll props))) :=
        .char (by decide) (by decide) (by decide) (name.append (bound.append later))
      simpa [writtenAll, written] using whole

/-- The text of properties that are read back does not make a tag close itself. -/
theorem getLast?_writtenAll {props : List Property} (whole : NamesWhole false props) :
    (writtenAll props).getLast? ≠ some '/' := by
  rcases List.eq_nil_or_concat props with rfl | ⟨before, property, rfl⟩
  · simp [writtenAll]
  · have unslashed := (namesWhole_iff.1 whole).2 rfl property (by simp)
    have last : (' ' :: property.written).getLast? ≠ some '/' := by
      cases present : property.bound? with
      | some value => simp [written, present, writtenBinding, List.getLast?_cons]
      | none =>
          rw [written, present, writtenBinding, List.append_nil]
          cases name : property.writtenName with
          | nil => simp
          | cons c rest =>
              rw [List.getLast?_cons_cons, ← name]
              exact unslashed present
    have shape : writtenAll (before.concat property) =
        writtenAll before ++ ' ' :: property.written := by
      simp [writtenAll]
    rwa [shape, List.getLast?_append, List.getLast?_cons, Option.some_or, ← List.getLast?_cons]

end Property

/-! ## Inert tokens -/

/-- The end of an opening tag before its last character. -/
def Token.writtenSlash (selfClosing : Bool) : List Char :=
  if selfClosing then " /".toList else []

theorem Token.writtenEnd_eq (selfClosing : Bool) :
    writtenEnd selfClosing = writtenSlash selfClosing ++ ['>'] := by
  cases selfClosing <;> rfl

namespace Property

theorem head?_writtenAll (props : List Property) (selfClosing : Bool) :
    ∀ c ∈ (writtenAll props ++ Token.writtenSlash selfClosing).head?, c = ' ' := by
  cases props with
  | cons property props => simp [writtenAll]
  | nil => cases selfClosing <;> simp [writtenAll, Token.writtenSlash]

/-- The text of inert properties is inert. -/
theorem inert_writtenAll {props : List Property} (inert : ∀ property ∈ props, property.Inert)
    (selfClosing : Bool) : Block.Inert (writtenAll props ++ Token.writtenSlash selfClosing) := by
  induction props with
  | nil => cases selfClosing <;> decide
  | cons property props ih =>
      rcases List.forall_mem_cons.1 inert with ⟨⟨nameInert, boundInert⟩, inert⟩
      have later := ih inert
      have spaced : ∀ c ∈ (writtenAll props ++ Token.writtenSlash selfClosing).head?,
          Block.endsMark c = true := by
        intro c head
        rw [head?_writtenAll props selfClosing c head]
        rfl
      have whole : Block.Inert (property.writtenName ++ (writtenBinding property.bound? ++
          (writtenAll props ++ Token.writtenSlash selfClosing))) := by
        cases present : property.bound? with
        | none => exact nameInert.append later spaced
        | some value =>
            have quoted : Block.Inert (value ++ '"' :: (writtenAll props ++
                Token.writtenSlash selfClosing)) :=
              (boundInert value present).append (Block.inert_cons (by decide) later)
                (forall_head?_cons (by decide) _)
            have bound := Block.inert_cons (c := '=') (by decide)
              (Block.inert_cons (c := '"') (by decide) quoted)
            simpa [writtenBinding] using nameInert.append bound (forall_head?_cons (by decide) _)
      simpa [writtenAll, written] using Block.inert_cons (c := ' ') (by decide) whole

end Property

namespace Token

/-- An opening tag that is no template's is inert, up to its last character. -/
theorem inert_openTag {tag : String} {props : List Property} (named : IsTagName tag)
    (other : Block.opensName "template".toList tag.toList = false)
    (inert : ∀ property ∈ props, property.Inert) (selfClosing : Bool) :
    Inert ('<' :: (tag.toList ++ (Property.writtenAll props ++ writtenSlash selfClosing))) := by
  have spaced := Property.head?_writtenAll props selfClosing
  have propsInert := Property.inert_writtenAll inert selfClosing
  generalize Property.writtenAll props ++ writtenSlash selfClosing = tail at spaced propsInert
  have ends : ∀ c ∈ tail.head?, Block.endsMark c = true := by
    intro c head
    rw [spaced c head]
    rfl
  refine ⟨?_, (Block.inert_of_not_mem (not_mem_of_isTagName named)).append propsInert ends⟩
  rcases exists_of_isTagName named with ⟨c, rest, shape, letter⟩
  rw [shape] at other ⊢
  rw [List.cons_append, Block.opensMark_openTag _ letter, ← List.cons_append]
  apply Block.opensName_append (by simp) other
  intro c head
  rw [spaced c head]
  decide

/-- A closing tag that is no template's is inert, up to its last character. -/
theorem inert_closeTag {tag : String} (named : IsTagName tag)
    (other : Block.opensName "template".toList tag.toList = false) :
    Inert ('<' :: '/' :: tag.toList) := by
  refine ⟨?_, Block.inert_cons (by decide) (Block.inert_of_not_mem (not_mem_of_isTagName named))⟩
  rwa [Block.opensMark_closeTag]

/-- An interpolation with an inert expression is inert, up to its last character. -/
theorem balanced_interpolation {content : String} (inert : Inert content.toList)
    (following : List Char) : Balanced (Token.interpolation content).written following := by
  have ended : Inert (content.toList ++ [' ', '\x7d']) := inert.append (by decide)
    (forall_head?_cons (by decide) _)
  have whole : Inert (openBraces ++ ' ' :: (content.toList ++ [' ', '\x7d'])) :=
    Block.inert_cons (by decide) (Block.inert_cons (by decide) (Block.inert_cons (by decide) ended))
  have balanced := whole.balanced_concat (c := '\x7d') (by decide) (by decide) following
  simpa [written, openBraces, closeBraces] using balanced

/-- Where no markup begins, no mark begins either. -/
theorem opensMark_of_startsMarkup {text following : List Char}
    (unmarked : startsMarkup (text ++ following) = false) : Block.opensMark text = false := by
  rw [Bool.eq_false_iff]
  intro opened
  rw [Block.opensMark, Bool.or_eq_true, Bool.or_eq_true, isSome_after?_iff] at opened
  rcases opened with (comment | opening) | closing
  · rcases comment with ⟨rest, rfl⟩
    cases unmarked
  · rcases Block.prefix_of_opensName opening with ⟨rest, rfl⟩
    cases unmarked
  · rcases Block.prefix_of_opensName closing with ⟨rest, rfl⟩
    cases unmarked

/-- A text in which no markup begins is inert. -/
theorem inert_of_unmarked {content following : List Char} (unmarked : Unmarked following content) :
    Inert content := by
  induction content with
  | nil => trivial
  | cons c content ih =>
      exact ⟨opensMark_of_startsMarkup unmarked.1, ih unmarked.2⟩

end Token

/-! ## Trees -/

/-- What is no text begins with a character that continues no mark. -/
theorem Node.endsMark_head? (rest : List Char) : (node : Node) → node.Formed Token.Passable →
    node.isText = false →
    ∀ c ∈ (Token.writtenAll node.tokens ++ rest).head?, Block.endsMark c = true
  | .element .., _, _ => by rintro c ⟨⟩; rfl
  | .comment _, _, _ => by rintro c ⟨⟩; rfl
  | .interpolation (.expression _ false), _, _ => by rintro c ⟨⟩; rfl

/-- The tag of a nested template is passed over together with its content. -/
theorem balanced_nested {props : List Property} {inner following : List Char}
    (plain : ∀ property ∈ props, property.NamePlain)
    (quoteFree : ∀ property ∈ props, property.QuoteFree)
    (whole : Property.NamesWhole false props)
    (content : Balanced inner ("</template>".toList ++ following)) :
    Balanced ("<template".toList ++ (Property.writtenAll props ++ '>' :: (inner ++
      "</template>".toList))) following := by
  have spaced : ∀ c ∈ (Property.writtenAll props).head?, Block.isTagChar c = false := by
    cases props with
    | nil => simp [Property.writtenAll]
    | cons property props => exact forall_head?_cons (by decide) _
  have unblank : ∀ c ∈ ([] : List Char), isBlockBlank c = true := by simp
  exact .nested (Property.tagText_writtenAll plain quoteFree) spaced
    (Property.getLast?_writtenAll whole) unblank content (.nil following)

/-- The tag of a nested template that closes itself is passed over. -/
theorem balanced_selfClosing {props : List Property} {following : List Char}
    (plain : ∀ property ∈ props, property.NamePlain)
    (quoteFree : ∀ property ∈ props, property.QuoteFree) :
    Balanced ("<template".toList ++ (Property.writtenAll props ++ " />".toList)) following := by
  have space : TagText [' '] := Block.tagText_of_plain (by simp)
  have tagText := (Property.tagText_writtenAll plain quoteFree).append space
  have spaced : ∀ c ∈ (Property.writtenAll props ++ [' ']).head?, Block.isTagChar c = false := by
    cases props with
    | nil => exact forall_head?_cons (by decide) _
    | cons property props => exact forall_head?_cons (by decide) _
  simpa using Balanced.selfClosing tagText spaced (.nil following)

mutual

theorem Node.balanced_writtenAll : (node : Node) → node.Formed Token.Passable →
    (following : List Char) →
    (node.isText = true → ∀ c ∈ following.head?, Block.endsMark c = true) →
    Balanced (Token.writtenAll node.tokens) following
  | .element tag props children selfClosing, ⟨openOk, _, childrenOk⟩, following, _ => by
      have closing (rest : List Char) : ∀ c ∈ ('<' :: rest).head?, Block.endsMark c = true :=
        forall_head?_cons (by decide) rest
      have content := Forest.balanced_writtenAll children childrenOk
      rcases openOk with ⟨⟨named, -⟩, quoteFree, sheltered, ⟨_, whole⟩⟩
      by_cases nested : tag = "template"
      · subst nested
        cases selfClosing with
        | true =>
            simpa [Node.tokens, Token.written, Token.writtenEnd] using
              balanced_selfClosing sheltered quoteFree
        | false =>
            have inner := content ("</template>".toList ++ following) (closing _)
            simpa [Node.tokens, Token.written, Token.writtenEnd] using
              balanced_nested sheltered quoteFree whole inner
      · rw [Token.Sheltered, if_neg nested] at sheltered
        have opening :=
          (Token.inert_openTag named sheltered.1 sheltered.2 selfClosing).balanced_concat
            (c := '>') (by decide) (by decide)
        cases selfClosing with
        | true =>
            simpa [Node.tokens, Token.written, Token.writtenEnd_eq] using opening following
        | false =>
            have closed := (Token.inert_closeTag named sheltered.1).balanced_concat
              (c := '>') (by decide) (by decide) following
            have inner := content ('<' :: '/' :: (tag.toList ++ '>' :: following)) (closing _)
            have body := Balanced.append (by simpa using inner) closed
            simpa [Node.tokens, Token.written, Token.writtenEnd_eq] using (opening _).append body
  | .text content, ⟨_, _, _, ⟨_, stands⟩⟩, following, ends => by
      simpa [Node.tokens, Token.written] using
        (Token.inert_of_unmarked stands.2).balanced (ends rfl)
  | .comment content, ⟨absent, _, _, _⟩, following, _ => by
      simpa [Node.tokens, Token.written] using Balanced.comment absent (.nil following)
  | .interpolation (.expression content false), ⟨_, _, sheltered, _⟩, following, _ => by
      simpa [Node.tokens] using Token.balanced_interpolation sheltered following

/-- The text of a forest with sheltered tokens is balanced in front of a tag. -/
theorem Forest.balanced_writtenAll : (forest : List Node) →
    Forest.Formed Token.Passable forest → (following : List Char) →
    (∀ c ∈ following.head?, Block.endsMark c = true) →
    Balanced (Token.writtenAll (Forest.tokens forest)) following
  | [], _, following, _ => .nil following
  | node :: nodes, ⟨nodeOk, apart, nodesOk⟩, following, ends => by
      have later := Forest.balanced_writtenAll nodes nodesOk following ends
      rw [Forest.tokens, Token.writtenAll_append]
      refine Balanced.append (Node.balanced_writtenAll node nodeOk _ ?_) later
      intro isText
      cases nodes with
      | nil => exact ends
      | cons next nodes =>
          rw [Forest.tokens, Token.writtenAll_append, List.append_assoc]
          exact Node.endsMark_head? _ next nodesOk.1 (apart isText next rfl)

end

end SingleFile.Markup
