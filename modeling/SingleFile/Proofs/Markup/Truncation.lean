import SingleFile.Proofs.Markup.Invariant
import SingleFile.Proofs.Markup.RoundTrip

/-!
# Texts that break off

A forest is built from tokens without loss: every character that a token is written with
is still written in the forest, but for those of closing tags, which are written anew.
Scanning loses blanks, quotes and more, but it never gains a `<`. So the text from which a
forest is read holds as many `<` as the forest is written with, and a text that breaks off
inside a tag, a comment or an interpolation before a `<` holds too few.

Main statement: `Forest.Printable.read_eq_iff_of_append`, a printable forest is read from the
beginning of its text exactly when nothing but closing tags is missing.
-/

namespace SingleFile.Markup

open SingleFile.Text

variable {counted : Char → Bool}

namespace Token

/-- How many of the counted characters a token is written with. Closing tags do not
count, since a forest is written with its own. -/
def tally (counted : Char → Bool) : Token → Nat
  | .closeTag _ => 0
  | token => token.written.countP counted

/-- How many of the counted characters tokens are written with. -/
def tallyAll (counted : Char → Bool) : List Token → Nat
  | [] => 0
  | token :: tokens => token.tally counted + tallyAll counted tokens

@[simp] theorem tallyAll_nil : tallyAll counted [] = 0 := rfl

@[simp] theorem tallyAll_cons (token : Token) (tokens : List Token) :
    tallyAll counted (token :: tokens) = token.tally counted + tallyAll counted tokens := rfl

@[simp] theorem tallyAll_append (front back : List Token) :
    tallyAll counted (front ++ back) = tallyAll counted front + tallyAll counted back := by
  induction front with
  | nil => simp
  | cons token front ih => simp [ih, Nat.add_assoc]

@[simp] theorem tally_closeTag (tag : String) : (closeTag tag).tally counted = 0 := rfl

end Token

open Token

/-! ## Building a forest -/

/-- How many of the counted characters a forest is written with, without closing tags. -/
def Forest.tally (counted : Char → Bool) (forest : List Node) : Nat :=
  tallyAll counted (Forest.tokens forest)

@[simp] theorem Forest.tally_nil : Forest.tally counted [] = 0 := rfl

@[simp] theorem Forest.tally_cons (node : Node) (nodes : List Node) :
    Forest.tally counted (node :: nodes) =
      tallyAll counted node.tokens + Forest.tally counted nodes := by
  simp [Forest.tally, Forest.tokens]

@[simp] theorem Forest.tally_reverse (nodes : List Node) :
    Forest.tally counted nodes.reverse = Forest.tally counted nodes := by
  have append (front back : List Node) : Forest.tally counted (front ++ back) =
      Forest.tally counted front + Forest.tally counted back := by
    induction front with
    | nil => simp
    | cons node front ih => simp [ih, Nat.add_assoc]
  induction nodes with
  | nil => rfl
  | cons node nodes ih => simp [append, ih, Nat.add_comm]

/-- Text that continues text is written behind it. -/
theorem Forest.tally_attach (node : Node) (siblings : List Node) :
    Forest.tally counted (attach node siblings) =
      tallyAll counted node.tokens + Forest.tally counted siblings := by
  unfold attach
  split
  next content before siblings =>
    simp only [Forest.tally_cons, Node.tokens, tallyAll_cons, tallyAll_nil, Token.tally, written,
      String.toList_append, List.countP_append]
    omega
  next => simp

/-- An element counts with its opening tag and its content. -/
theorem Enclosing.tally_close (element : Enclosing) (content : List Node) :
    Forest.tally counted (element.close content) =
      (Token.openTag element.tag element.props false).tally counted +
        Forest.tally counted content + Forest.tally counted element.earlier := by
  have inner := @Forest.tally_reverse counted content
  rw [Forest.tally] at inner
  simp [Enclosing.close, Forest.tally_attach, Node.tokens, inner]

namespace Cursor

/-- What the open elements around a level are written with, up to that level. -/
def tallyAround (counted : Char → Bool) : List Enclosing → Nat
  | [] => 0
  | element :: enclosing =>
    (Token.openTag element.tag element.props false).tally counted +
      Forest.tally counted element.earlier + tallyAround counted enclosing

/-- What the tokens that have been taken in so far are written with. -/
def tally (counted : Char → Bool) (cursor : Cursor) : Nat :=
  Forest.tally counted cursor.siblings + tallyAround counted cursor.enclosing

theorem tally_closeThrough (tag : String) (siblings : List Node) (enclosing : List Enclosing) :
    (closeThrough tag siblings enclosing).tally counted =
      Forest.tally counted siblings + tallyAround counted enclosing := by
  fun_induction closeThrough tag siblings enclosing with
  | case1 siblings => rfl
  | case2 siblings element enclosing same =>
      simp only [tally, Enclosing.tally_close, tallyAround]
      omega
  | case3 siblings element enclosing other ih =>
      rw [ih, Enclosing.tally_close, tallyAround]
      omega

theorem tally_ascend (cursor : Cursor) (tag : String) :
    (cursor.ascend tag).tally counted = cursor.tally counted := by
  rw [ascend]
  split
  · exact tally_closeThrough tag cursor.siblings cursor.enclosing
  · rfl

/-- Taking in a token adds what it counts for. -/
theorem tally_step (cursor : Cursor) (token : Token) :
    (cursor.step token).tally counted = cursor.tally counted + token.tally counted := by
  have add (node : Node) : (cursor.add node).tally counted =
      cursor.tally counted + tallyAll counted node.tokens := by
    simp only [Cursor.add, tally, Forest.tally_attach]
    omega
  cases token with
  | closeTag tag => exact tally_ascend cursor tag
  | openTag tag props selfClosing =>
      rw [step]
      split
      · rw [add]
        cases selfClosing <;> simp [Node.tokens, Forest.tokens]
      next goesOn =>
        have unclosed : selfClosing = false := by
          simp only [Bool.or_eq_true, not_or, Bool.not_eq_true] at goesOn
          exact goesOn.1
        simp only [unclosed, descend, tally, tallyAround, Forest.tally_nil]
        omega
  | _ => simp [step, add, Node.tokens]

theorem tally_foldl_step (cursor : Cursor) (tokens : List Token) :
    (tokens.foldl step cursor).tally counted = cursor.tally counted + tallyAll counted tokens := by
  induction tokens generalizing cursor with
  | nil => rfl
  | cons token tokens ih =>
      rw [List.foldl_cons, ih, tally_step, tallyAll_cons, Nat.add_assoc]

theorem tally_closeAll (siblings : List Node) (enclosing : List Enclosing) :
    Forest.tally counted (closeAll siblings enclosing) =
      Forest.tally counted siblings + tallyAround counted enclosing := by
  induction enclosing generalizing siblings with
  | nil => rfl
  | cons element enclosing ih =>
      rw [closeAll, ih, Enclosing.tally_close, tallyAround]
      omega

end Cursor

/-- A forest is written with what its tokens are written with. -/
theorem Forest.tally_ofTokens (tokens : List Token) :
    Forest.tally counted (Forest.ofTokens tokens) = tallyAll counted tokens := by
  have taken := @Cursor.tally_foldl_step counted Cursor.start tokens
  rw [Forest.ofTokens, Cursor.finish, Forest.tally_reverse, Cursor.tally_closeAll]
  simpa [Cursor.tally, Cursor.start, Cursor.tallyAround] using taken

/-! ## Reading directives and properties -/

theorem flatten_splitOn_sublist (c : Char) (text : List Char) :
    (text.splitOn c).flatten.Sublist text := by
  induction text with
  | nil => simp
  | cons d text ih =>
      rw [List.splitOn_cons_eq_if_modifyHead]
      split
      · simpa using ih.cons d
      · cases pieces : text.splitOn c with
        | nil => exact absurd pieces (List.splitOn_ne_nil c text)
        | cons first others =>
            rw [pieces] at ih
            simpa using ih.cons_cons d

theorem count_takeWhile_add_dropWhile (holds : Char → Bool) (text : List Char) :
    (text.takeWhile holds).count '<' + (text.dropWhile holds).count '<' = text.count '<' := by
  rw [← List.count_append, List.takeWhile_append_dropWhile]

/-- What is read as an argument stands in the text. -/
theorem Argument.count_written_of_read? {body rest : List Char} {arg : Argument}
    (read : Argument.read? body = some (arg, rest)) :
    arg.written.count '<' + rest.count '<' = body.count '<' := by
  unfold Argument.read? at read
  split at read
  next inner =>
    obtain ⟨⟨content, tail⟩, cut, equal⟩ := Option.map_eq_some_iff.1 read
    cases equal
    simp [eq_append_of_cut? cut, Argument.written]
  next =>
    split at read
    next => cases read
    next =>
      cases read
      simpa [Argument.written] using count_takeWhile_add_dropWhile (· != '.') body

namespace DirectiveName

/-- What is read as modifiers stands in the text. -/
theorem count_writtenModifiers_le (tail : List Char) :
    (writtenModifiers (readModifiers tail)).count '<' ≤ tail.count '<' := by
  have written (pieces : List (List Char)) :
      (writtenModifiers ((pieces.filter (· ≠ [])).map String.ofList)).count '<' =
        pieces.flatten.count '<' := by
    induction pieces with
    | nil => rfl
    | cons piece pieces ih =>
        cases piece with
        | nil => simpa using ih
        | cons c piece => simpa [writtenModifiers, List.count_cons] using ih
  rw [readModifiers, written]
  calc ((tail.drop 1).splitOn '.').flatten.count '<'
    _ ≤ (tail.drop 1).count '<' := (flatten_splitOn_sublist '.' _).count_le '<'
    _ ≤ tail.count '<' := (List.drop_sublist 1 tail).count_le '<'

theorem count_readArgument_le (explicit : Bool) (tail : List Char) :
    (((readArgument explicit tail).1.map Argument.written).getD []).count '<' +
      (readArgument explicit tail).2.count '<' ≤ tail.count '<' := by
  fun_cases readArgument explicit tail with
  | case1 => simp
  | case2 c body opens arg rest read =>
      have found := Argument.count_written_of_read? read
      have body := (List.sublist_cons_self c body).count_le '<'
      simp only [Option.map_some, Option.getD_some]
      omega
  | case3 c body opens unread => simp
  | case4 c body other => simp

theorem count_writtenTail_ofTail_le (name : String) (explicit : Bool) (implied : List String)
    (tail : List Char) :
    (ofTail name explicit implied tail).writtenTail.count '<' ≤
      (writtenModifiers implied).count '<' + tail.count '<' := by
  have argument := count_readArgument_le explicit tail
  have modifiers := count_writtenModifiers_le (readArgument explicit tail).2
  simp only [ofTail, writtenTail, writtenModifiers, List.flatMap_append, List.count_append]
    at modifiers ⊢
  omega

/-- The explicit form of a name has no `<` that the name did not have. -/
theorem count_written_ofChars_le (raw : List Char) :
    (ofChars raw).written.count '<' ≤ raw.count '<' := by
  have tailed (parts : DirectiveName) : parts.written.count '<' =
      parts.name.toList.count '<' + parts.writtenTail.count '<' := by
    simp [written]
  rw [tailed]
  unfold ofChars
  split
  next body explicit =>
    have tail := count_writtenTail_ofTail_le (String.ofList (body.takeWhile isNameChar)) true []
      (body.dropWhile isNameChar)
    have parts := count_takeWhile_add_dropWhile isNameChar body
    rw [after?_eq_some_iff.1 explicit]
    simp only [ofTail, String.toList_ofList, writtenModifiers, List.flatMap_nil, List.count_nil,
      Nat.zero_add, List.count_append] at tail ⊢
    omega
  next =>
    have tail := count_writtenTail_ofTail_le (ofShorthand raw) false (impliedModifiers raw) raw
    have name : (ofShorthand raw).toList.count '<' = 0 := by
      unfold ofShorthand
      split <;> rfl
    have implied : (writtenModifiers (impliedModifiers raw)).count '<' = 0 := by
      unfold impliedModifiers
      split <;> rfl
    simp only [ofTail] at tail ⊢
    omega

end DirectiveName

namespace Property

/-- A property has no `<` that the name and the value it is made of did not have. -/
theorem count_written_ofWritten_le (name : List Char) (value : Option (List Char)) :
    (ofWritten name value).written.count '<' ≤ name.count '<' + (value.getD []).count '<' := by
  have binding (bound : Option (List Char)) :
      (writtenBinding bound).count '<' = (bound.getD []).count '<' := by
    cases bound <;> simp [writtenBinding]
  rw [written, List.count_append, binding]
  unfold ofWritten
  split
  next =>
    have parts := DirectiveName.count_written_ofChars_le name
    have argBack (arg : Option Argument) :
        (arg.map Argument.toNode).bind Node.argument? = arg := by
      cases arg <;> rfl
    simp only [DirectiveName.toProperty, writtenName, argBack, bound?]
    cases value with
    | none => simpa using parts
    | some value =>
        by_cases empty : value = []
        · simpa [empty, Option.filter] using parts
        · simpa [empty, Option.filter, Node.plain?] using parts
  next =>
    cases value <;> simp [writtenName, bound?, Node.plain?]

theorem readName_append_readName (bracketed : Bool) (text : List Char) :
    (readName bracketed text).1 ++ (readName bracketed text).2 = text := by
  induction text generalizing bracketed with
  | nil => rfl
  | cons c rest ih =>
      rw [readName]
      split
      · rfl
      · simp [ih]

/-- The value that is read and what is left stand in the text. -/
theorem readValue_sublist (text : List Char) :
    ((readValue text).1 ++ (readValue text).2).Sublist text := by
  cases text with
  | nil => simp [readValue]
  | cons c rest =>
      rw [readValue]
      split
      · have dropped := List.drop_sublist 1 (rest.dropWhile (· != c))
        have parts := (List.Sublist.refl (rest.takeWhile (· != c))).append dropped
        rw [List.takeWhile_append_dropWhile] at parts
        exact parts.cons c
      · simp only [List.takeWhile_append_dropWhile, List.Sublist.refl]

theorem readBinding_sublist (text : List Char) :
    ((readBinding text).1.getD [] ++ (readBinding text).2).Sublist text := by
  unfold readBinding
  split
  next rest shape =>
    have value := readValue_sublist (rest.dropWhile isTagBlank)
    have unblank := (List.dropWhile_sublist isTagBlank (l := rest)).cons '='
    rw [← shape] at unblank
    exact value.trans (unblank.trans (List.dropWhile_sublist isTagBlank))
  next => simp

/-- Reading a property gains no `<`. -/
theorem count_le_of_read? {text rest : List Char} {property : Property}
    (read : read? text = some (property, rest)) :
    property.written.count '<' + rest.count '<' ≤ text.count '<' := by
  simp only [read?] at read
  split at read
  next => cases read
  next =>
    cases read
    have name := congrArg (List.count '<') (readName_append_readName false text)
    have binding := (readBinding_sublist (readName false text).2).count_le '<'
    have made := count_written_ofWritten_le (readName false text).1
      (readBinding (readName false text).2).1
    simp only [List.count_append] at name binding
    omega

end Property

/-- The property in a part of an opening tag, as it is written. -/
def TagPart.written : TagPart → List Char
  | .property prop => prop.written
  | _ => []

theorem TagPart.count_next_le (text : List Char) :
    (next text).1.written.count '<' + (next text).2.count '<' ≤ text.count '<' := by
  have blanks := (List.dropWhile_sublist isTagBlank (l := text)).count_le '<'
  rw [next]
  split <;> rename_i shape <;> rw [shape] at blanks
  · simp [written]
  · simpa [written, List.count_cons] using blanks
  · simpa [written] using blanks
  · simpa [written] using blanks
  · split
    next read => exact Nat.le_trans (Property.count_le_of_read? read) blanks
    next =>
      have rest := Nat.le_trans ((List.sublist_cons_self _ _).count_le '<') blanks
      simpa [written] using rest

theorem TagTail.count_read_le (text : List Char) :
    (Property.writtenAll (read text).props).count '<' + (read text).rest.count '<' ≤
      text.count '<' := by
  fun_induction read text with
  | case1 text selfClosing rest part =>
      have here := TagPart.count_next_le text
      simpa [part, Property.writtenAll, TagPart.written] using here
  | case2 text prop rest part tail ih =>
      have here := TagPart.count_next_le text
      have later : (Property.writtenAll tail.props).count '<' + tail.rest.count '<' ≤
          rest.count '<' := ih
      simp only [part, TagPart.written] at here
      simp only [Property.writtenAll, List.flatMap_cons, List.cons_append, List.count_append,
        List.count_cons_of_ne (show ' ' ≠ '<' by decide)] at later ⊢
      omega
  | case3 text rest part ih =>
      have here := TagPart.count_next_le text
      simp only [part, TagPart.written] at here
      omega

namespace Token

theorem count_le_of_comment? {text rest : List Char} {token : Token}
    (read : comment? text = some (token, rest)) :
    token.written.count '<' + rest.count '<' ≤ text.count '<' := by
  obtain ⟨body, begins, equal⟩ := Option.map_eq_some_iff.1 read
  rw [after?_eq_some_iff.1 begins]
  split at equal
  next content tail cut =>
    cases equal
    simp [eq_append_of_cut? cut, written, Nat.add_right_comm]
  next =>
    cases equal
    simp [written]

theorem count_le_of_closeTag? {text rest : List Char} {token : Token}
    (read : closeTag? text = some (token, rest)) :
    token.written.count '<' + rest.count '<' ≤ text.count '<' := by
  unfold closeTag? at read
  split at read
  next body =>
    split at read
    next => cases read
    next =>
      cases read
      have tag := count_takeWhile_add_dropWhile isTagChar body
      have after := ((List.drop_sublist 1 _).trans (List.dropWhile_sublist (· != '>')
        (l := body.dropWhile isTagChar))).count_le '<'
      simp only [written, String.toList_ofList, List.count_cons_self, List.count_append,
        List.count_cons_of_ne (show '/' ≠ '<' by decide),
        List.count_cons_of_ne (show '>' ≠ '<' by decide), List.count_nil]
      omega
  next => cases read

theorem count_le_of_openTag? {text rest : List Char} {token : Token}
    (read : openTag? text = some (token, rest)) :
    token.written.count '<' + rest.count '<' ≤ text.count '<' := by
  unfold openTag? at read
  split at read
  next c body =>
    split at read
    next =>
      cases read
      have tag := count_takeWhile_add_dropWhile isTagChar (c :: body)
      have tail := TagTail.count_read_le ((c :: body).dropWhile isTagChar)
      have ending (selfClosing : Bool) : (writtenEnd selfClosing).count '<' = 0 := by
        cases selfClosing <;> rfl
      simp only [written, List.count_cons_self, List.count_append, ending, String.toList_ofList]
      omega
    next => cases read
  next => cases read

theorem count_le_of_interpolation? {text rest : List Char} {token : Token}
    (read : interpolation? text = some (token, rest)) :
    token.written.count '<' + rest.count '<' ≤ text.count '<' := by
  simp only [interpolation?, Option.bind_eq_bind, Option.bind_eq_some_iff] at read
  obtain ⟨body, begins, ⟨content, tail⟩, cut, equal⟩ := read
  cases equal
  have trimmed := (trim_isInfix content).sublist.count_le '<'
  simpa [after?_eq_some_iff.1 begins, eq_append_of_cut? cut, written, openBraces, closeBraces]
    using trimmed

theorem textRun_append_textRun (text : List Char) :
    (textRun text).1 ++ (textRun text).2 = text := by
  induction text with
  | nil => rfl
  | cons c rest ih =>
      rw [textRun]
      split
      · rfl
      · simp [ih]

/-- Reading a token gains no `<`. -/
theorem count_next_le (c : Char) (rest : List Char) :
    (next c rest).1.written.count '<' + (next c rest).2.count '<' ≤ (c :: rest).count '<' := by
  rw [next]
  split
  next found read =>
    simp only [markup?, Option.orElse_eq_orElse, Option.orElse_eq_or, Option.or_eq_some_iff]
      at read
    rcases read with read | ⟨-, read | ⟨-, read | ⟨-, read⟩⟩⟩
    · exact count_le_of_comment? read
    · exact count_le_of_closeTag? read
    · exact count_le_of_openTag? read
    · exact count_le_of_interpolation? read
  next =>
    apply Nat.le_of_eq
    simp only [written, String.toList_ofList]
    rw [← List.count_append, List.cons_append, textRun_append_textRun]

/-- Scanning gains no `<`. -/
theorem count_writtenAll_scan_le (text : List Char) :
    (writtenAll (scan text)).count '<' ≤ text.count '<' := by
  fun_induction scan text with
  | case1 => simp
  | case2 c rest found ih =>
      have here : found.1.written.count '<' + found.2.count '<' ≤ (c :: rest).count '<' :=
        count_next_le c rest
      rw [writtenAll_cons, List.count_append]
      omega

theorem tallyAll_le_count (tokens : List Token) :
    tallyAll (· == '<') tokens ≤ (writtenAll tokens).count '<' := by
  induction tokens with
  | nil => simp
  | cons token tokens ih =>
      have here : token.tally (· == '<') ≤ token.written.count '<' := by
        cases token <;> simp [tally, List.count]
      rw [tallyAll_cons, writtenAll_cons, List.count_append]
      omega

theorem startsMarkup_append {text : List Char} (begins : startsMarkup text = true)
    (more : List Char) : startsMarkup (text ++ more) = true := by
  unfold startsMarkup at begins
  split at begins
  next => rfl
  next => exact begins
  next => exact startsMarkup_of_letter begins _
  next rest =>
    obtain ⟨parts, cut⟩ := Option.isSome_iff_exists.1 begins
    change (cut? closeBraces (rest ++ more)).isSome = true
    rw [Option.isSome_iff_ne_none, ne_eq, cut?_eq_none_iff, Decidable.not_not,
      eq_append_of_cut? cut]
    exact ⟨parts.1, parts.2 ++ more, by simp⟩
  next => cases begins

/-- A text that stands before other text stands before its beginning. -/
theorem Stands.of_append {content following more : List Char}
    (stands : Stands content (following ++ more)) : Stands content following := by
  obtain ⟨unclosed, unmarked⟩ := stands
  constructor
  · rw [← List.append_assoc] at unclosed
    generalize content ++ following = text at unclosed
    unfold closeTag?
    split
    next body =>
      cases body with
      | nil => rfl
      | cons c body =>
          cases named : isTagChar c with
          | true => simp [closeTag?, named] at unclosed
          | false => simp [named]
    next => rfl
  · clear unclosed
    induction content with
    | nil => trivial
    | cons c run ih =>
        refine ⟨?_, ih unmarked.2⟩
        rw [Bool.eq_false_iff]
        intro begins
        have longer := startsMarkup_append begins more
        rw [List.cons_append, List.append_assoc, unmarked.1] at longer
        cases longer

theorem Placed.of_append {token : Token} {following more : List Char}
    (placed : token.Placed (following ++ more)) : token.Placed following := by
  cases token with
  | text content => exact Stands.of_append placed
  | _ => exact placed

/-- Where the text of legible tokens breaks off somewhere behind the first of them, it does
not give more than these first tokens and the `<` that follow them. -/
theorem tallyAll_scan_append_le {tokens back : List Token} {begun missing : List Char}
    (wellFormed : ∀ token ∈ tokens, token.WellFormed)
    (quoteFree : ∀ token ∈ tokens, token.QuoteFree) (apart : Apart tokens)
    (legible : Legible (tokens ++ back)) (inside : writtenAll back = begun ++ missing) :
    tallyAll (· == '<') (scan (writtenAll tokens ++ begun)) ≤
      tallyAll (· == '<') tokens + begun.count '<' := by
  have scanned (text : List Char) : tallyAll (· == '<') (scan text) ≤ text.count '<' :=
    Nat.le_trans (tallyAll_le_count _) (count_writtenAll_scan_le text)
  induction tokens with
  | nil => simpa using scanned begun
  | cons token tokens ih =>
      obtain ⟨here, othersOk⟩ := List.forall_mem_cons.1 wellFormed
      obtain ⟨hereFree, othersFree⟩ := List.forall_mem_cons.1 quoteFree
      obtain ⟨placed, othersLegible⟩ := legible
      have later := ih othersOk othersFree apart.2 othersLegible
      rw [writtenAll_cons, List.append_assoc, tallyAll_cons]
      by_cases last : token.isText = true ∧ tokens = []
      · -- What follows the last text may become part of it.
        obtain ⟨isText, rfl⟩ := last
        have joined := scanned (token.written ++ begun)
        cases token with
        | text content => simpa [tally, List.count] using joined
        | _ => cases isText
      · have placedHere : token.Placed (writtenAll tokens ++ begun) := by
          have whole : writtenAll (tokens ++ back) = (writtenAll tokens ++ begun) ++ missing := by
            rw [writtenAll_append, inside, List.append_assoc]
          exact Placed.of_append (whole ▸ placed)
        have ends : token.isText = true → writtenAll tokens ++ begun = [] ∨
            startsMarkup (writtenAll tokens ++ begun) = true := by
          intro isText
          right
          exact startsMarkup_writtenAll othersOk apart isText (fun none => last ⟨isText, none⟩) _
        rw [scan_written here hereFree placedHere ends, tallyAll_cons]
        omega

/-- Where written tokens break off, it is in front of a token or inside one. -/
theorem exists_cut {tokens : List Token} {body cut : List Char} (proper : cut ≠ [])
    (whole : writtenAll tokens = body ++ cut) :
    ∃ front token back begun missing, tokens = front ++ token :: back ∧ missing ≠ [] ∧
      token.written = begun ++ missing ∧ body = writtenAll front ++ begun ∧
      cut = missing ++ writtenAll back := by
  induction tokens generalizing body with
  | nil => exact absurd (List.append_eq_nil_iff.1 whole.symm).2 proper
  | cons token tokens ih =>
      have place : (∃ more, body = token.written ++ more ∧ writtenAll tokens = more ++ cut) ∨
          ∃ missing, missing ≠ [] ∧ token.written = body ++ missing ∧
            cut = missing ++ writtenAll tokens := by
        rcases List.append_eq_append_iff.1 whole with ⟨more, behind, later⟩ |
          ⟨missing, here, rest⟩
        · exact .inl ⟨more, behind, later⟩
        · by_cases complete : missing = []
          · subst complete
            exact .inl ⟨[], by simpa using here.symm, rest.symm⟩
          · exact .inr ⟨missing, complete, here, rest⟩
      rcases place with ⟨more, rfl, later⟩ | ⟨missing, present, here, rest⟩
      · rcases ih later with ⟨front, next, back, begun, missing, rfl, present, inside, rfl, rest⟩
        exact ⟨token :: front, next, back, begun, missing, rfl, present, inside, by simp, rest⟩
      · exact ⟨[], token, tokens, body, missing, rfl, present, here, rfl, rest⟩

theorem apart_left {front back : List Token} (apart : Apart (front ++ back)) : Apart front := by
  induction front with
  | nil => trivial
  | cons token front ih =>
      refine ⟨?_, ih apart.2⟩
      intro isText next head
      apply apart.1 isText next
      cases front with
      | nil => cases head
      | cons first front => exact head

theorem legible_left {front back : List Token} (legible : Legible (front ++ back)) :
    Legible front := by
  induction front with
  | nil => trivial
  | cons token front ih =>
      obtain ⟨placed, later⟩ := legible
      exact ⟨Placed.of_append (writtenAll_append front back ▸ placed), ih later⟩

end Token

/-! ## Closing tags at the end -/

namespace Cursor

/-- At the end everything is closed, also what a closing tag closes before. -/
theorem finish_ascend (cursor : Cursor) (tag : String) :
    (cursor.ascend tag).finish = cursor.finish := by
  have closed (siblings : List Node) (enclosing : List Enclosing) :
      (closeThrough tag siblings enclosing).finish = finish ⟨siblings, enclosing⟩ := by
    fun_induction closeThrough tag siblings enclosing with
    | case1 siblings => rfl
    | case2 siblings element enclosing same => rfl
    | case3 siblings element enclosing other ih => exact ih
  rw [ascend]
  split
  · exact closed cursor.siblings cursor.enclosing
  · rfl

theorem finish_foldl_step {closings : List Token}
    (closing : ∀ token ∈ closings, token.isCloseTag = true) (cursor : Cursor) :
    (closings.foldl step cursor).finish = cursor.finish := by
  induction closings generalizing cursor with
  | nil => rfl
  | cons token closings ih =>
      rw [List.forall_mem_cons] at closing
      rw [List.foldl_cons, ih closing.2]
      cases token with
      | closeTag tag => exact finish_ascend cursor tag
      | _ => cases closing.1

end Cursor

namespace Forest

variable {forest : List Node} {front back : List Token}

/-- The first tokens of a printable forest are read back from their text. -/
theorem Printable.read_front (printable : Printable forest)
    (parts : tokens forest = front ++ back) :
    Forest.read (String.ofList (writtenAll front)) = ofTokens front := by
  have wellFormed := printable.wellFormed
  have quoteFree := printable.quoteFree
  have apart := printable.apart
  have legible := printable.legible
  rw [parts] at wellFormed quoteFree apart legible
  rw [Forest.read, String.toList_ofList, scan_writtenAll
    (fun token member => wellFormed token (List.mem_append_left back member))
    (fun token member => quoteFree token (List.mem_append_left back member))
    (apart_left apart) (legible_left legible)]

/-- A printable forest is read from its text without the closing tags at the end. -/
theorem Printable.read_of_closings (printable : Printable forest)
    (parts : tokens forest = front ++ back)
    (closing : ∀ token ∈ back, token.isCloseTag = true) :
    Forest.read (String.ofList (writtenAll front)) = forest := by
  have built : ofTokens (front ++ back) = ofTokens front := by
    rw [ofTokens, List.foldl_append]
    exact Cursor.finish_foldl_step closing _
  rw [printable.read_front parts, ← built, ← parts, ofTokens_tokens printable.formed]

/-- If a printable forest is read from the text of its first tokens, the others are closing
tags. -/
theorem Printable.isCloseTag_of_read (printable : Printable forest)
    (parts : tokens forest = front ++ back)
    (read : Forest.read (String.ofList (writtenAll front)) = forest) :
    ∀ token ∈ back, token.isCloseTag = true := by
  -- Counting every character, what is missing counts for nothing.
  have lost : tallyAll (fun _ => true) back = 0 := by
    have kept := @tally_ofTokens (fun _ => true) front
    rw [← printable.read_front parts, read, tally, parts, tallyAll_append] at kept
    omega
  intro token member
  have none : token.tally (fun _ => true) = 0 := by
    obtain ⟨before, after, rfl⟩ := List.append_of_mem member
    rw [tallyAll_append, tallyAll_cons] at lost
    omega
  have ok := printable.wellFormed token (by simp [parts, member])
  cases token with
  | closeTag tag => rfl
  | text content =>
      have empty : content = "" := by simpa [Token.tally, written] using none
      exact absurd empty ok
  | _ => simp [Token.tally, written, openBraces] at none

/-- A text that breaks off inside of a token, with a `<` still to come in it, does not give
the forest. -/
theorem Printable.read_ne_of_append (printable : Printable forest)
    {token : Token} {begun missing : List Char}
    (parts : tokens forest = front ++ token :: back) (inside : token.written = begun ++ missing)
    (proper : begun ≠ []) (marked : '<' ∈ missing) :
    Forest.read (String.ofList (writtenAll front ++ begun)) ≠ forest := by
  have wellFormed := printable.wellFormed
  have quoteFree := printable.quoteFree
  have apart := printable.apart
  have legible := printable.legible
  rw [parts] at wellFormed quoteFree apart legible
  have opening : token.tally (· == '<') = token.written.count '<' := by
    cases token with
    | closeTag tag =>
        -- The only `<` of a closing tag is its first character.
        have named : IsTagName tag := wellFormed (.closeTag tag) (by simp)
        cases begun with
        | nil => exact absurd rfl proper
        | cons c begun =>
            have rest := (List.cons.inj inside).2
            have later : '<' ∈ '/' :: (tag.toList ++ ['>']) := by simp [rest, marked]
            have within : '<' ∈ tag.toList := by simpa using later
            exact absurd within (not_mem_of_isTagName named)
    | _ => rfl
  intro read
  have whole : writtenAll (token :: back) = begun ++ (missing ++ writtenAll back) := by
    rw [writtenAll_cons, inside, List.append_assoc]
  have scanned := tallyAll_scan_append_le
    (fun other member => wellFormed other (List.mem_append_left _ member))
    (fun other member => quoteFree other (List.mem_append_left _ member)) (apart_left apart)
    legible whole
  have kept := @tally_ofTokens (· == '<') (scan (writtenAll front ++ begun))
  rw [Forest.read, String.toList_ofList] at read
  rw [read, tally, parts, tallyAll_append, tallyAll_cons, opening, inside, List.count_append]
    at kept
  have missed : 0 < missing.count '<' := List.count_pos_iff.2 marked
  omega

/-- A printable forest is read from the beginning of its text, where the rest begins with
a `<`, exactly when the rest is nothing but closing tags. -/
theorem Printable.read_eq_iff_of_append (printable : Printable forest) {body cut : List Char}
    (whole : writtenAll (tokens forest) = body ++ cut) (marked : ∀ c ∈ cut.head?, c = '<') :
    Forest.read (String.ofList body) = forest ↔
      ∃ front back, tokens forest = front ++ back ∧
        (∀ token ∈ back, token.isCloseTag = true) ∧ cut = writtenAll back := by
  constructor
  · intro read
    by_cases proper : cut = []
    · exact ⟨tokens forest, [], by simp, by simp, by simp [proper]⟩
    · rcases exists_cut proper whole with
        ⟨front, token, back, begun, missing, parts, present, written, rfl, rfl⟩
      have begins : '<' ∈ missing := by
        cases missing with
        | nil => exact absurd rfl present
        | cons c missing => simp [marked c rfl]
      by_cases inside : begun = []
      · subst inside
        rw [List.append_nil] at read
        exact ⟨front, token :: back, parts, printable.isCloseTag_of_read parts read,
          by rw [writtenAll_cons, written, List.nil_append]⟩
      · exact absurd read (printable.read_ne_of_append parts written inside begins)
  · rintro ⟨front, back, parts, closing, rfl⟩
    rw [parts, writtenAll_append] at whole
    rw [← List.append_cancel_right whole, printable.read_of_closings parts closing]

end Forest

end SingleFile.Markup
