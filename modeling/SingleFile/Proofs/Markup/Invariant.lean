import SingleFile.Proofs.Markup.Building

/-!
# What is read from template text

Reading never fails, whatever the text is, and its result always has the same
shape: every token that is scanned is well formed, apart from closing tags, and
taking tokens in keeps the forest formed. The invariant of the second half is
`Cursor.Sound`: the siblings at every open level are formed, and every open
element may have content.

Main statement: `Forest.formed_read`.
-/

namespace SingleFile.Markup

open SingleFile.Text

/-! ## Scanned tokens -/

/-- A directive has a name that is not empty. -/
theorem DirectiveName.name_ofChars_ne {raw : List Char}
    (directive : Property.isDirective raw = true) :
    (ofChars raw).name ≠ "" := by
  unfold ofChars
  split
  next body begins =>
    rw [after?_eq_some_iff.1 begins] at directive
    cases body with
    | nil => simp [Property.isDirective] at directive
    | cons c body =>
        have nameChar : isNameChar c = true := by simpa [Property.isDirective] using directive
        simp [ofTail, nameChar]
  next =>
    change ofShorthand raw ≠ ""
    unfold ofShorthand
    split <;> simp

namespace Property

/-- A written name that is not empty and does not begin with `/` gives a well-formed
property, with any value. -/
theorem wellFormed_ofWritten {name : List Char} (named : name ≠ [])
    (unslashed : name.head? ≠ some '/') (value : Option (List Char)) :
    (ofWritten name value).WellFormed := by
  unfold ofWritten
  split
  next directive =>
    have parts := DirectiveName.wellFormed_ofChars name
    refine ⟨DirectiveName.name_ofChars_ne directive, parts.name, ?_, parts.modifiers, ?_⟩
    · intro node present
      rcases Option.map_eq_some_iff.1 present with ⟨arg, isArg, rfl⟩
      exact parts.arg arg isArg
    · intro node present
      rcases Option.map_eq_some_iff.1 present with ⟨content, kept, rfl⟩
      have proper : content ≠ [] := by
        simpa using (Option.filter_eq_some_iff.1 kept).2
      exact ⟨rfl, by simpa using proper⟩
  next plain =>
    refine ⟨by simpa using named, by simpa using unslashed, by simpa using plain, ?_⟩
    intro node present
    rcases Option.map_eq_some_iff.1 present with ⟨content, -, rfl⟩
    rfl

theorem head?_readName {c : Char} {rest : List Char} (named : (readName false (c :: rest)).1 ≠ []) :
    (readName false (c :: rest)).1.head? = some c := by
  rw [readName] at named ⊢
  split
  next stops => exact absurd (by rw [if_pos stops]) named
  next => rfl

theorem wellFormed_of_read? {c : Char} {text rest : List Char} {property : Property}
    (unslashed : c ≠ '/') (read : read? (c :: text) = some (property, rest)) :
    property.WellFormed := by
  simp only [read?] at read
  split at read
  next => simp at read
  next named =>
    cases read
    apply wellFormed_ofWritten named
    simpa [head?_readName named] using unslashed

end Property

theorem TagPart.wellFormed_of_next {text rest : List Char} {property : Property}
    (read : TagPart.next text = (.property property, rest)) : property.WellFormed := by
  rw [TagPart.next] at read
  split at read
  next => simp at read
  next => simp at read
  next => simp at read
  next => simp at read
  next c tail _ _ other _ =>
    split at read
    next found =>
      cases read
      apply Property.wellFormed_of_read? _ found
      rintro rfl
      exact other rfl
    next => simp at read

/-- The properties of every opening tag are well formed. -/
theorem TagTail.wellFormed_read (text : List Char) :
    ∀ property ∈ (TagTail.read text).props, property.WellFormed := by
  fun_induction TagTail.read text with
  | case1 => simp
  | case2 text property rest part _ ih =>
      intro other member
      rcases List.mem_cons.1 member with rfl | member
      · exact TagPart.wellFormed_of_next part
      · exact ih other member
  | case3 text rest part ih => exact ih

namespace Token

/-- Whether a token is a closing tag. -/
def isCloseTag : Token → Bool
  | .closeTag _ => true
  | _ => false

theorem wellFormed_of_comment? {text rest : List Char} {token : Token}
    (read : comment? text = some (token, rest)) : token.WellFormed := by
  rcases Option.map_eq_some_iff.1 read with ⟨body, -, equal⟩
  split at equal
  next cut =>
    cases equal
    simpa [WellFormed] using not_infix_of_cut? (by decide) cut
  next missed =>
    cases equal
    simpa [WellFormed] using cut?_eq_none_iff.1 missed

theorem isCloseTag_of_closeTag? {text rest : List Char} {token : Token}
    (read : closeTag? text = some (token, rest)) : token.isCloseTag = true := by
  unfold closeTag? at read
  split at read
  next =>
    split at read
    next => simp at read
    next =>
      cases read
      rfl
  next => simp at read

theorem isTagChar_of_isAlpha {c : Char} (letter : c.isAlpha = true) : isTagChar c = true := by
  simp [isTagChar, Char.isAlphanum, letter]

theorem wellFormed_of_openTag? {text rest : List Char} {token : Token}
    (read : openTag? text = some (token, rest)) : token.WellFormed := by
  unfold openTag? at read
  split at read
  next c body =>
    split at read
    next letter =>
      cases read
      refine ⟨⟨?_, ?_⟩, TagTail.wellFormed_read _⟩
      · simp [isTagChar_of_isAlpha letter, letter]
      · intro d member
        rw [String.toList_ofList] at member
        exact holds_of_mem_takeWhile member
    next => simp at read
  next => simp at read

theorem wellFormed_of_interpolation? {text rest : List Char} {token : Token}
    (read : interpolation? text = some (token, rest)) : token.WellFormed := by
  simp only [interpolation?, Option.bind_eq_bind, Option.bind_eq_some_iff] at read
  rcases read with ⟨body, -, ⟨content, tail⟩, cut, equal⟩
  cases equal
  have absent := not_infix_of_cut? (by decide) cut
  simp only [WellFormed, String.toList_ofList]
  exact ⟨trim_trim content, fun inside => absent (inside.trans (trim_isInfix content))⟩

/-- The token at the start of a text is well formed, unless it is a closing tag. -/
theorem wellFormed_next (c : Char) (rest : List Char) :
    (next c rest).1.isCloseTag = false → (next c rest).1.WellFormed := by
  intro opening
  rw [next] at opening ⊢
  split
  next found read =>
    rw [read] at opening
    simp only [markup?, Option.orElse_eq_orElse, Option.orElse_eq_or,
      Option.or_eq_some_iff] at read
    rcases read with read | ⟨-, read | ⟨-, read | ⟨-, read⟩⟩⟩
    · exact wellFormed_of_comment? read
    · simp [isCloseTag_of_closeTag? read] at opening
    · exact wellFormed_of_openTag? read
    · exact wellFormed_of_interpolation? read
  next => simp [WellFormed]

/-- Every token of a text is well formed, apart from closing tags. -/
theorem wellFormed_scan (text : List Char) :
    ∀ token ∈ scan text, token.isCloseTag = false → token.WellFormed := by
  fun_induction scan text with
  | case1 => simp
  | case2 c rest found ih =>
      intro token member
      rcases List.mem_cons.1 member with rfl | member
      · exact wellFormed_next c rest
      · exact ih token member

end Token

/-! ## Taking tokens in -/

variable {good : Token → Prop}

/-- Siblings stay formed with one more after them that continues no text. -/
theorem Forest.formed_concat_iff {nodes : List Node} {node : Node} :
    Forest.Formed good (nodes ++ [node]) ↔
      Forest.Formed good nodes ∧ node.Formed good ∧
        (node.isText = true → ∀ last ∈ nodes.getLast?, last.isText = false) := by
  induction nodes with
  | nil => simp [Forest.Formed]
  | cons first nodes ih =>
      rw [List.cons_append, Forest.Formed, Forest.Formed, ih]
      cases nodes with
      | nil => grind [Forest.Formed]
      | cons second nodes => grind

namespace Cursor

/-- Every open level is formed, and every open element may have content. -/
structure Sound (good : Token → Prop) (cursor : Cursor) : Prop where
  siblings : Forest.Formed good cursor.siblings.reverse
  earlier : ∀ element ∈ cursor.enclosing, Forest.Formed good element.earlier.reverse
  opened : ∀ element ∈ cursor.enclosing, good (.openTag element.tag element.props false)
  enclosed : Enclosed cursor.enclosing

end Cursor

section

-- Texts on both sides of a dropped closing tag become one.
variable (joins : ∀ before content, good (.text before) → good (.text content) →
  good (.text (before ++ content)))

include joins

theorem formed_attach {node : Node} {siblings : List Node}
    (siblingsOk : Forest.Formed good siblings.reverse) (nodeOk : node.Formed good) :
    Forest.Formed good (attach node siblings).reverse := by
  unfold attach
  split
  next content before others =>
    rw [List.reverse_cons, Forest.formed_concat_iff] at siblingsOk ⊢
    rcases siblingsOk with ⟨othersOk, beforeOk, apart⟩
    exact ⟨othersOk, joins before content beforeOk nodeOk, apart⟩
  next other =>
    rw [List.reverse_cons, Forest.formed_concat_iff]
    refine ⟨siblingsOk, nodeOk, ?_⟩
    intro isText last isLast
    rcases Node.exists_of_isText isText with ⟨content, rfl⟩
    rw [List.getLast?_reverse, Option.mem_def, List.head?_eq_some_iff] at isLast
    rcases isLast with ⟨others, rfl⟩
    cases lastText : last.isText with
    | false => rfl
    | true =>
        rcases Node.exists_of_isText lastText with ⟨before, rfl⟩
        exact (other content before others rfl rfl).elim

namespace Cursor

theorem Sound.add {cursor : Cursor} {node : Node} (sound : Sound good cursor)
    (nodeOk : node.Formed good) : Sound good (cursor.add node) :=
  { sound with siblings := formed_attach joins sound.siblings nodeOk }

omit joins in
theorem Sound.descend {cursor : Cursor} {tag : String} {props : List Property}
    (sound : Sound good cursor) (opened : good (.openTag tag props false))
    (mayHaveContent : tag ∉ voidTags) : Sound good (cursor.descend tag props) where
  siblings := trivial
  earlier := List.forall_mem_cons.2 ⟨sound.siblings, sound.earlier⟩
  opened := List.forall_mem_cons.2 ⟨opened, sound.opened⟩
  enclosed := List.forall_mem_cons.2 ⟨mayHaveContent, sound.enclosed⟩

/-- Closing the innermost open element keeps a cursor sound. -/
theorem Sound.close {siblings : List Node} {element : Enclosing} {enclosing : List Enclosing}
    (sound : Sound good ⟨siblings, element :: enclosing⟩) :
    Sound good ⟨element.close siblings, enclosing⟩ := by
  rcases List.forall_mem_cons.1 sound.earlier with ⟨earlierOk, earlier⟩
  rcases List.forall_mem_cons.1 sound.opened with ⟨openOk, opened⟩
  rcases List.forall_mem_cons.1 sound.enclosed with ⟨mayHaveContent, enclosed⟩
  have childless : false = true ∨ element.tag ∈ voidTags → siblings.reverse = [] := by
    rintro (selfClosing | void)
    · cases selfClosing
    · exact absurd void mayHaveContent
  have closed : (Node.element element.tag element.props siblings.reverse false).Formed good :=
    ⟨openOk, childless, sound.siblings⟩
  exact ⟨formed_attach joins earlierOk closed, earlier, opened, enclosed⟩

theorem Sound.closeThrough {tag : String} {siblings : List Node} {enclosing : List Enclosing}
    (sound : Sound good ⟨siblings, enclosing⟩) :
    Sound good (closeThrough tag siblings enclosing) := by
  induction enclosing generalizing siblings with
  | nil => exact sound
  | cons element enclosing ih =>
      rw [Cursor.closeThrough]
      split
      · exact sound.close joins
      · exact ih (sound.close joins)

/-- Taking in a token keeps a cursor sound. -/
theorem Sound.step {cursor : Cursor} {token : Token} (sound : Sound good cursor)
    (tokenOk : token.isCloseTag = false → good token) : Sound good (cursor.step token) := by
  cases token with
  | comment content => exact sound.add joins (tokenOk rfl)
  | closeTag tag =>
      change Sound good (cursor.ascend tag)
      rw [ascend]
      split
      · exact Sound.closeThrough joins sound
      · exact sound
  | openTag tag props selfClosing =>
      rw [Cursor.step]
      split
      next childless => exact sound.add joins ⟨tokenOk rfl, fun _ => rfl, trivial⟩
      next mayHaveContent =>
        simp only [Bool.or_eq_true, List.contains_iff_mem, not_or, Bool.not_eq_true]
          at mayHaveContent
        rcases mayHaveContent with ⟨rfl, nonvoid⟩
        exact sound.descend (tokenOk rfl) nonvoid
  | interpolation content => exact sound.add joins (tokenOk rfl)
  | text content => exact sound.add joins (tokenOk rfl)

/-- Taking in tokens one after the other keeps a cursor sound. -/
theorem Sound.foldl_step {cursor : Cursor} {tokens : List Token} (sound : Sound good cursor)
    (tokensOk : ∀ token ∈ tokens, token.isCloseTag = false → good token) :
    Sound good (tokens.foldl Cursor.step cursor) := by
  induction tokens generalizing cursor with
  | nil => exact sound
  | cons token tokens ih =>
      rcases List.forall_mem_cons.1 tokensOk with ⟨tokenOk, tokensOk⟩
      exact ih (sound.step joins tokenOk) tokensOk

/-- The forest of a sound cursor is formed, whatever is still open. -/
theorem Sound.finish {cursor : Cursor} (sound : Sound good cursor) :
    Forest.Formed good cursor.finish := by
  rcases cursor with ⟨siblings, enclosing⟩
  change Forest.Formed good (closeAll siblings enclosing).reverse
  induction enclosing generalizing siblings with
  | nil => exact sound.siblings
  | cons element enclosing ih => exact ih _ (sound.close joins)

end Cursor

/-- Good tokens build a formed forest, with closing tags anywhere among them. -/
theorem Forest.formed_ofTokens {tokens : List Token}
    (tokensOk : ∀ token ∈ tokens, token.isCloseTag = false → good token) :
    Forest.Formed good (Forest.ofTokens tokens) := by
  have start : Cursor.Sound good Cursor.start := ⟨trivial, by simp [Cursor.start],
    by simp [Cursor.start], by simp [Cursor.start, Cursor.Enclosed]⟩
  exact (start.foldl_step joins tokensOk).finish joins

end

/-- Every text is read as a formed forest with well-formed tokens. -/
theorem Forest.formed_read (text : String) :
    Forest.Formed Token.WellFormed (Forest.read text) := by
  apply Forest.formed_ofTokens
  · intro before content beforeOk _
    simpa [Token.WellFormed] using fun empty : before = "" => absurd empty beforeOk
  · exact Token.wellFormed_scan text.toList

end SingleFile.Markup
