import SingleFile.Proofs.Markup.Written

/-!
# Scanning written tokens

The text of well-formed tokens is scanned into the same tokens, when every token
stands where it cannot be taken for something else. Two sorts of token depend on
what is written around them. A text must not hold the beginning of markup, also
not together with what follows it; and the name of a property must end where it
is written to end, which an open bracket or a slash before `>` prevents.
`Token.Legible` states these conditions.

Main statement: `Token.scan_writtenAll`.
-/

namespace SingleFile.Markup

open SingleFile.Text

namespace Property

/-- No double quote in the value or expression, where it would end early. -/
def QuoteFree (property : Property) : Prop :=
  ∀ value ∈ property.bound?, '"' ∉ value

/-- Every name is read back up to what is written after it in the tag; `namesWhole_iff` says
this on the characters of the names. -/
def NamesWhole (selfClosing : Bool) : List Property → Prop
  | [] => True
  | property :: props =>
    let following := writtenBinding property.bound? ++
      (writtenAll props ++ Token.writtenEnd selfClosing)
    readName false (property.writtenName ++ following) = (property.writtenName, following) ∧
      NamesWhole selfClosing props

/-- A name that is read back before `next` is read back before any text that begins
with `next`. -/
theorem readName_append {bracketed : Bool} {name : List Char} {next : Char}
    {following other : List Char}
    (whole : readName bracketed (name ++ next :: following) = (name, next :: following))
    (ends : endsName next other = true) :
    readName bracketed (name ++ next :: other) = (name, next :: other) := by
  induction name generalizing bracketed with
  | nil =>
      rw [List.nil_append, readName] at whole ⊢
      split at whole
      next stops =>
        have unbracketed : bracketed = false := by
          simp only [Bool.and_eq_true, Bool.not_eq_true'] at stops
          exact stops.1
        simp [unbracketed, ends]
      next => simp at whole
  | cons c name ih =>
      have sameNext : endsName c (name ++ next :: other) =
          endsName c (name ++ next :: following) := by
        cases name <;> rfl
      rw [List.cons_append, readName] at whole ⊢
      rw [sameNext]
      split at whole
      next => simp at whole
      next goesOn =>
        rw [if_neg goesOn]
        simp only [Prod.mk.injEq, List.cons.injEq, true_and] at whole ⊢
        have read := ih (Prod.ext whole.1 whole.2)
        rw [read]
        exact ⟨rfl, rfl⟩

/-- A value in quotes is read up to the second quote. -/
theorem readValue_quoted {quote : Char} {value : List Char} (isQuote : quote = '"' ∨ quote = '\'')
    (quoteFree : quote ∉ value) (following : List Char) :
    readValue (quote :: (value ++ quote :: following)) = (value, following) := by
  have every : ∀ c ∈ value, (c != quote) = true := by
    intro c member
    simp only [bne_iff_ne, ne_eq]
    rintro rfl
    exact quoteFree member
  have stops : ∀ c ∈ (quote :: following).head?, (c != quote) = false := by simp
  have taken := takeWhile_append every stops
  have dropped := dropWhile_append every stops
  simp [readValue, isQuote, taken, dropped]

/-- A value in double quotes is read back. -/
theorem readBinding_writtenBinding {value following : List Char} (quoteFree : '"' ∉ value) :
    readBinding (writtenBinding (some value) ++ following) = (some value, following) := by
  have read := readValue_quoted (.inl rfl) quoteFree following
  simp [writtenBinding, readBinding, isTagBlank, read]

/-- The explicit form of a well-formed directive is that of well-formed parts. -/
theorem wellFormed_parts {name : String} {arg : Option Node} {modifiers : List String}
    {exp : Option Node} (wellFormed : (Property.directive name arg modifiers exp).WellFormed) :
    DirectiveName.WellFormed ⟨name, arg.bind Node.argument?, modifiers⟩ := by
  obtain ⟨-, nameOk, args, modifiersOk, -⟩ := wellFormed
  refine ⟨nameOk, ?_, modifiersOk⟩
  intro parsed present
  obtain ⟨node, isArg, asArgument⟩ := Option.bind_eq_some_iff.1 present
  obtain ⟨argument, rfl, argumentOk⟩ := (args node isArg).exists_argument
  cases asArgument
  exact argumentOk

/-- An explicit name is that of a directive. -/
theorem isDirective_written {parts : DirectiveName} (wellFormed : parts.WellFormed)
    (named : parts.name ≠ "") : isDirective parts.written = true := by
  cases chars : parts.name.toList with
  | nil => exact absurd (String.toList_eq_nil_iff.1 chars) named
  | cons c rest =>
      have first := wellFormed.name c (by simp [chars])
      simpa [DirectiveName.written, chars, isDirective] using first

/-- A name that splits into these parts gives the directive with these parts. -/
theorem ofWritten_of_ofChars {raw : List Char} {parts : DirectiveName} {exp : Option Node}
    (directive : isDirective raw = true) (split : DirectiveName.ofChars raw = parts)
    (exps : ∀ node ∈ exp, node.IsBinding) :
    ofWritten raw (exp.bind Node.plain?) = parts.toProperty exp := by
  have expBack : ((exp.bind Node.plain?).filter (· ≠ [])).map
      (fun value => Node.expression (String.ofList value) false) = exp := by
    cases exp with
    | none => rfl
    | some node =>
        obtain ⟨content, rfl, proper⟩ := (exps node rfl).exists_content
        simp [Node.plain?, Option.filter, proper]
  simp only [ofWritten, directive, if_true, split, expBack]

/-- The written name and value of a well-formed property give the property. -/
theorem ofWritten_writtenName : (property : Property) → property.WellFormed →
    ofWritten property.writtenName property.bound? = property
  | .attribute name value, ⟨_, _, plain, values⟩ => by
      cases value with
      | none => simp [writtenName, bound?, ofWritten, plain]
      | some node =>
          obtain ⟨content, rfl⟩ := Node.exists_of_isText (values node rfl)
          simp [writtenName, bound?, ofWritten, plain, Node.plain?]
  | .directive name arg modifiers exp, wellFormed => by
      have parts := wellFormed_parts wellFormed
      obtain ⟨named, -, args, -, exps⟩ := wellFormed
      have argBack : (arg.bind Node.argument?).map Argument.toNode = arg := by
        cases arg with
        | none => rfl
        | some node =>
            obtain ⟨argument, rfl, -⟩ := (args node rfl).exists_argument
            rfl
      have read := ofWritten_of_ofChars (isDirective_written parts named)
        (DirectiveName.ofChars_written parts) exps
      simpa only [writtenName, bound?, DirectiveName.toProperty, argBack] using read

/-- Characters with which a written property can begin. -/
def Begins (c : Char) : Prop := c ≠ '/' ∧ c ≠ '=' ∧ c ≠ '>' ∧ isTagBlank c = false

theorem head?_writtenName : (property : Property) → property.WellFormed →
    ∃ c name, property.writtenName = c :: name ∧ c ≠ '/'
  | .attribute name value, ⟨named, unslashed, _, _⟩ => by
      cases chars : name.toList with
      | nil => exact absurd (String.toList_eq_nil_iff.1 chars) named
      | cons c rest => exact ⟨c, rest, chars, by simpa [chars] using unslashed⟩
  | .directive name arg modifiers exp, _ => ⟨'v', _, rfl, by decide⟩

/-- A property whose name is read back begins with a character that begins one. -/
theorem begins_writtenName {property : Property} {following : List Char}
    (wellFormed : property.WellFormed)
    (whole : readName false (property.writtenName ++ following) =
      (property.writtenName, following)) :
    ∃ c name, property.writtenName = c :: name ∧ Begins c := by
  rcases head?_writtenName property wellFormed with ⟨c, name, shape, unslashed⟩
  refine ⟨c, name, shape, unslashed, ?_⟩
  rw [shape, List.cons_append, readName] at whole
  split at whole
  next => simp at whole
  next goesOn =>
    simp only [endsName, unslashed, Bool.not_false, Bool.true_and, Bool.false_and, Bool.or_eq_true,
      decide_eq_true_eq, decide_false, Bool.false_eq_true, or_false, not_or,
      Bool.not_eq_true] at goesOn
    rcases goesOn with ⟨⟨⟨⟨unequal, unclosing⟩, -⟩, -⟩, unblank⟩
    exact ⟨unequal, unclosing, unblank⟩

/-- What follows a name in a tag begins with a character that ends names. -/
theorem head_following (bound : Option (List Char)) (props : List Property)
    (selfClosing : Bool) :
    ∃ next tail, (next = '=' ∨ next = ' ' ∨ next = '>') ∧
      writtenBinding bound ++ (writtenAll props ++ Token.writtenEnd selfClosing) =
        next :: tail := by
  cases bound with
  | some value => exact ⟨'=', _, .inl rfl, rfl⟩
  | none =>
      cases props with
      | cons property props => exact ⟨' ', _, .inr (.inl rfl), rfl⟩
      | nil =>
          cases selfClosing with
          | true => exact ⟨' ', _, .inr (.inl rfl), rfl⟩
          | false => exact ⟨'>', _, .inr (.inr rfl), rfl⟩

/-- A name is read back also where the tag is followed by further text. -/
theorem readName_writtenName {property : Property} {props : List Property}
    {selfClosing : Bool} (whole : NamesWhole selfClosing (property :: props))
    (rest : List Char) :
    let following := writtenBinding property.bound? ++
      (writtenAll props ++ (Token.writtenEnd selfClosing ++ rest))
    readName false (property.writtenName ++ following) = (property.writtenName, following) := by
  rcases head_following property.bound? props selfClosing with ⟨next, tail, ends, shape⟩
  have named := whole.1
  have extended : writtenBinding property.bound? ++
      (writtenAll props ++ (Token.writtenEnd selfClosing ++ rest)) = next :: (tail ++ rest) := by
    rw [← List.cons_append, ← shape]
    simp only [List.append_assoc]
  simp only [shape] at named
  simp only [extended]
  apply readName_append named
  rcases ends with rfl | rfl | rfl <;> rfl

theorem readBinding_eq_none {text : List Char}
    (unequal : ∀ c ∈ (text.dropWhile isTagBlank).head?, c ≠ '=') :
    readBinding text = (none, text) := by
  rw [readBinding]
  split
  next rest equal => simp [equal] at unequal
  next => rfl

/-- The blank before a property is passed over. -/
theorem dropWhile_writtenAll {property : Property} {c : Char} {name : List Char}
    (shape : property.writtenName = c :: name) (begins : Begins c) (props : List Property)
    (following : List Char) :
    (writtenAll (property :: props) ++ following).dropWhile isTagBlank =
      property.written ++ (writtenAll props ++ following) := by
  have space : isTagBlank ' ' = true := rfl
  simp [writtenAll, written, shape, space, begins.2.2.2]

/-- After the blanks before it, the rest of a tag does not begin with an equals sign. -/
theorem readBinding_writtenAll {props : List Property} {selfClosing : Bool}
    (wellFormed : ∀ property ∈ props, property.WellFormed)
    (whole : NamesWhole selfClosing props) (rest : List Char) :
    readBinding (writtenAll props ++ (Token.writtenEnd selfClosing ++ rest)) =
      (none, writtenAll props ++ (Token.writtenEnd selfClosing ++ rest)) := by
  apply readBinding_eq_none
  cases props with
  | nil => cases selfClosing <;> simp [writtenAll, Token.writtenEnd, isTagBlank]
  | cons property props =>
      rcases begins_writtenName (wellFormed property (by simp)) whole.1 with
        ⟨c, name, shape, begins⟩
      rw [dropWhile_writtenAll shape begins]
      simp [written, shape, begins.2.1]

/-- A written property is read back. -/
theorem read?_written {property : Property} {props : List Property} {selfClosing : Bool}
    (wellFormed : ∀ other ∈ property :: props, other.WellFormed)
    (quoteFree : property.QuoteFree) (whole : NamesWhole selfClosing (property :: props))
    (rest : List Char) :
    let following := writtenAll props ++ (Token.writtenEnd selfClosing ++ rest)
    read? (property.written ++ following) = some (property, following) := by
  have propertyOk := wellFormed property (by simp)
  have named := readName_writtenName whole rest
  have bound : readBinding (writtenBinding property.bound? ++
      (writtenAll props ++ (Token.writtenEnd selfClosing ++ rest))) =
      (property.bound?, writtenAll props ++ (Token.writtenEnd selfClosing ++ rest)) := by
    cases present : property.bound? with
    | none =>
        exact readBinding_writtenAll (fun other member => wellFormed other (by simp [member]))
          whole.2 rest
    | some value => exact readBinding_writtenBinding (quoteFree value present)
  have proper : property.writtenName ≠ [] := by
    rcases head?_writtenName property propertyOk with ⟨c, name, shape, -⟩
    simp [shape]
  simp only [written, List.append_assoc, read?, named, bound, proper, if_false,
    ofWritten_writtenName property propertyOk]

end Property

theorem TagPart.next_property {text rest : List Char} {c : Char} {tail : List Char}
    {property : Property} (begins : Property.Begins c)
    (shape : text.dropWhile isTagBlank = c :: tail)
    (read : Property.read? (c :: tail) = some (property, rest)) :
    TagPart.next text = (.property property, rest) := by
  rcases begins with ⟨unslashed, -, unclosing, -⟩
  rw [TagPart.next, shape]
  split
  next equal => simp at equal
  next equal => simp_all
  next equal => simp_all
  next equal => simp_all
  next equal =>
    cases equal
    simp [read]

namespace TagTail

theorem read_finish {text rest : List Char} {selfClosing : Bool}
    (part : TagPart.next text = (.finish selfClosing, rest)) :
    read text = ⟨[], selfClosing, rest⟩ := by
  rw [read]
  split <;> simp_all

theorem read_property {text rest : List Char} {property : Property}
    (part : TagPart.next text = (.property property, rest)) :
    read text = { read rest with props := property :: (read rest).props } := by
  rw [read]
  split <;> simp_all

/-- The properties of an opening tag are read back, in their order. -/
theorem read_writtenAll {props : List Property} {selfClosing : Bool}
    (wellFormed : ∀ property ∈ props, property.WellFormed)
    (quoteFree : ∀ property ∈ props, property.QuoteFree)
    (whole : Property.NamesWhole selfClosing props) (rest : List Char) :
    read (Property.writtenAll props ++ (Token.writtenEnd selfClosing ++ rest)) =
      ⟨props, selfClosing, rest⟩ := by
  induction props with
  | nil =>
      apply read_finish
      cases selfClosing <;> rfl
  | cons property props ih =>
      have later := ih (fun other member => wellFormed other (by simp [member]))
        (fun other member => quoteFree other (by simp [member])) whole.2
      rcases Property.begins_writtenName (wellFormed property (by simp)) whole.1 with
        ⟨c, name, shape, begins⟩
      have skipped := Property.dropWhile_writtenAll shape begins props
        (Token.writtenEnd selfClosing ++ rest)
      have found := Property.read?_written wellFormed (quoteFree property (by simp)) whole rest
      simp only [Property.written, shape, List.cons_append] at skipped found
      have part := TagPart.next_property begins skipped found
      rw [read_property part, later]

end TagTail

namespace Token

/-- Whether a token is text. -/
def isText : Token → Bool
  | .text _ => true
  | _ => false

/-- No double quote in a value or expression of an opening tag. -/
def QuoteFree : Token → Prop
  | .openTag _ props _ => ∀ property ∈ props, property.QuoteFree
  | _ => True

/-- No markup begins in a run of text, also not together with what follows it. -/
def Unmarked (following : List Char) : List Char → Prop
  | [] => True
  | c :: run => startsMarkup (c :: (run ++ following)) = false ∧ Unmarked following run

/-- A text in which nothing is taken for markup. At its very beginning a closing tag is
recognised also where its name does not begin with a letter. -/
def Stands (content following : List Char) : Prop :=
  closeTag? (content ++ following) = none ∧ Unmarked following content

/-- A token that is not taken for something else where it is written. -/
def Placed (token : Token) (following : List Char) : Prop :=
  match token with
  | .text content => Stands content.toList following
  | .openTag _ props selfClosing => Property.NamesWhole selfClosing props
  | _ => True

/-- Every text stands before what is written after it, and every property's name ends
where it is written to end. -/
def Legible : List Token → Prop
  | [] => True
  | token :: tokens => token.Placed (writtenAll tokens) ∧ Legible tokens

/-- No text follows a text directly. -/
def Apart : List Token → Prop
  | [] => True
  | token :: tokens =>
    (token.isText = true → ∀ next ∈ tokens.head?, next.isText = false) ∧ Apart tokens

/-! Whether tokens are legible can be computed. -/

instance (property : Property) : Decidable property.QuoteFree :=
  inferInstanceAs (Decidable (∀ value ∈ property.bound?, '"' ∉ value))

instance : (token : Token) → Decidable token.QuoteFree
  | .openTag _ props _ => inferInstanceAs (Decidable (∀ property ∈ props, property.QuoteFree))
  | .comment _ | .closeTag _ | .interpolation _ | .text _ => isTrue trivial

/-- Whether names are read back can be decided. -/
def decidableNamesWhole (selfClosing : Bool) :
    (props : List Property) → Decidable (Property.NamesWhole selfClosing props)
  | [] => isTrue trivial
  | _ :: props =>
    have := decidableNamesWhole selfClosing props
    inferInstanceAs (Decidable (_ ∧ _))

/-- Whether no markup begins in a text can be decided. -/
def decidableUnmarked (following : List Char) :
    (run : List Char) → Decidable (Unmarked following run)
  | [] => isTrue trivial
  | _ :: run =>
    have := decidableUnmarked following run
    inferInstanceAs (Decidable (_ ∧ _))

instance (following : List Char) : (token : Token) → Decidable (token.Placed following)
  | .text content =>
    have := decidableUnmarked following content.toList
    inferInstanceAs (Decidable (closeTag? (content.toList ++ following) = none ∧ _))
  | .openTag _ props selfClosing => decidableNamesWhole selfClosing props
  | .comment _ | .closeTag _ | .interpolation _ => isTrue trivial

instance decidableLegible : (tokens : List Token) → Decidable (Legible tokens)
  | [] => isTrue trivial
  | _ :: tokens =>
    have := decidableLegible tokens
    inferInstanceAs (Decidable (_ ∧ _))

theorem comment?_eq_none {text : List Char} (other : ∀ c ∈ text.tail.head?, c ≠ '!') :
    comment? text = none := by
  rw [comment?, Option.map_eq_none_iff, after?_eq_none_iff]
  rintro ⟨rest, rfl⟩
  simp at other

theorem closeTag?_cons {c : Char} (other : c ≠ '<') (text : List Char) :
    closeTag? (c :: text) = none := by
  unfold closeTag?
  split
  next equal =>
    simp only [List.cons.injEq] at equal
    exact absurd equal.1 other
  next => rfl

theorem closeTag?_eq_none {text : List Char} (other : ∀ c ∈ text.tail.head?, c ≠ '/') :
    closeTag? text = none := by
  unfold closeTag?
  split
  next => simp at other
  next => rfl

/-- A comment is read up to its first end mark. -/
theorem comment?_written {content : List Char} (absent : ¬ "-->".toList <:+: content)
    (rest : List Char) :
    comment? ("<!--".toList ++ (content ++ ("-->".toList ++ rest))) =
      some (.comment (String.ofList content), rest) := by
  rw [comment?, after?_append, Option.map_some, cut?_commentEnd absent]

theorem exists_of_isTagName {tag : String} (named : IsTagName tag) :
    ∃ c rest, tag.toList = c :: rest ∧ c.isAlpha = true := by
  cases chars : tag.toList with
  | nil => simp [IsTagName, chars] at named
  | cons c rest => exact ⟨c, rest, rfl, by simpa [chars] using named.1⟩

theorem not_mem_of_isTagName {tag : String} (named : IsTagName tag) : '<' ∉ tag.toList := by
  intro member
  exact absurd (named.2 '<' member) (by decide)

/-- A closing tag is read back. -/
theorem closeTag?_written {tag : String} (named : IsTagName tag) (rest : List Char) :
    closeTag? ('<' :: '/' :: (tag.toList ++ '>' :: rest)) = some (.closeTag tag, rest) := by
  rcases exists_of_isTagName named with ⟨c, tail, shape, -⟩
  have stops : ∀ c ∈ ('>' :: rest).head?, isTagChar c = false := forall_head?_cons (by decide) rest
  have taken := takeWhile_append named.2 stops
  have dropped := dropWhile_append named.2 stops
  have proper : tag.toList ≠ [] := by simp [shape]
  simp [closeTag?, taken, dropped]

/-- An opening tag is read back. -/
theorem openTag?_written {tag : String} {props : List Property} {selfClosing : Bool}
    (named : IsTagName tag) (wellFormed : ∀ property ∈ props, property.WellFormed)
    (quoteFree : ∀ property ∈ props, property.QuoteFree)
    (whole : Property.NamesWhole selfClosing props) (rest : List Char) :
    openTag? ('<' :: (tag.toList ++
        (Property.writtenAll props ++ (writtenEnd selfClosing ++ rest)))) =
      some (.openTag tag props selfClosing, rest) := by
  rcases exists_of_isTagName named with ⟨c, tail, shape, letter⟩
  have stops : ∀ c ∈ (Property.writtenAll props ++ (writtenEnd selfClosing ++ rest)).head?,
      isTagChar c = false := by
    cases props with
    | cons property props => exact forall_head?_cons (by decide) _
    | nil => cases selfClosing <;> exact forall_head?_cons (by decide) _
  have taken := takeWhile_append named.2 stops
  have dropped := dropWhile_append named.2 stops
  simp only [shape, List.cons_append] at taken dropped ⊢
  simp only [openTag?, letter, if_true, taken, dropped,
    TagTail.read_writtenAll wellFormed quoteFree whole rest, ← shape, String.ofList_toList]

/-- An interpolation is read back. -/
theorem interpolation?_written {content : String}
    (trimmed : trim content.toList = content.toList)
    (absent : ¬ closeBraces <:+: content.toList) (rest : List Char) :
    interpolation? (openBraces ++ ' ' :: (content.toList ++ ' ' :: (closeBraces ++ rest))) =
      some (.interpolation content, rest) := by
  have spaced : ¬ closeBraces <:+: (' ' :: (content.toList ++ [' '])) ++ closeBraces.dropLast := by
    have front := not_infix_cons (c := ' ') (by decide) (by decide) absent
    have back := not_infix_concat (c := ' ') (by decide) (by decide) front
    rw [show closeBraces.dropLast = ['\x7d'] from rfl, List.infix_concat_iff, not_or]
    refine ⟨?_, by simpa using back⟩
    rintro ⟨before, equal⟩
    have ends := congrArg (fun text => text.reverse.take 2) equal
    simp [closeBraces] at ends
  have cut := cut?_append spaced rest
  have blank : isBlank ' ' = true := by decide
  simp only [List.cons_append, List.append_assoc, List.nil_append] at cut
  simp only [interpolation?, after?_append, Option.bind_eq_bind, Option.bind_some, cut,
    trim_between blank blank trimmed, Option.pure_def, String.ofList_toList]

/-- No comment and no closing tag begins where an opening tag does. -/
theorem markup?_of_openTag? {text : List Char} {found : Token × List Char}
    (read : openTag? text = some found) : markup? text = some found := by
  have second : ∀ d ∈ text.tail.head?, d.isAlpha = true := by
    unfold openTag? at read
    split at read
    next c body =>
      split at read
      next letter => simpa using letter
      next => simp at read
    next => simp at read
  have noComment : comment? text = none := by
    apply comment?_eq_none
    rintro d head rfl
    exact absurd (second '!' head) (by decide)
  have noClose : closeTag? text = none := by
    apply closeTag?_eq_none
    rintro d head rfl
    exact absurd (second '/' head) (by decide)
  simp only [markup?, noComment, noClose, read]
  rfl

/-- No other markup begins where an interpolation does. -/
theorem markup?_of_interpolation? {text : List Char} {found : Token × List Char}
    (read : interpolation? text = some found) : markup? text = some found := by
  have begins := read
  simp only [interpolation?, Option.bind_eq_bind, Option.bind_eq_some_iff] at begins
  obtain ⟨body, braces, -⟩ := begins
  rw [after?_eq_some_iff.1 braces] at read ⊢
  simp only [openBraces, List.cons_append, List.nil_append] at read ⊢
  simp only [markup?, comment?, closeTag?, openTag?, read]
  rfl

/-- Every token but text is read back as the markup at the start of the text. -/
theorem markup?_written : (token : Token) → token.WellFormed → token.QuoteFree →
    token.isText = false → (rest : List Char) → token.Placed rest →
    markup? (token.written ++ rest) = some (token, rest)
  | .comment content, absent, _, _, rest, _ => by
      have read := comment?_written absent rest
      simp only [written, List.append_assoc, markup?, read, String.ofList_toList]
      rfl
  | .closeTag tag, named, _, _, rest, _ => by
      have noComment : comment? ('<' :: '/' :: (tag.toList ++ '>' :: rest)) = none :=
        comment?_eq_none (by simp)
      have read := closeTag?_written named rest
      simp only [written, List.cons_append, List.append_assoc, List.nil_append, markup?, noComment,
        read]
      rfl
  | .openTag tag props selfClosing, ⟨named, wellFormed⟩, quoteFree, _, rest, whole => by
      have read := openTag?_written named wellFormed quoteFree whole rest
      simpa only [written, List.cons_append, List.append_assoc] using markup?_of_openTag? read
  | .interpolation content, ⟨trimmed, absent⟩, _, _, rest, _ => by
      have read := interpolation?_written trimmed absent rest
      simpa only [written, List.cons_append, List.append_assoc] using
        markup?_of_interpolation? read

/-- Where markup begins, as a search for its marks. -/
theorem startsMarkup_eq (text : List Char) :
    startsMarkup text =
      ((after? "<!--".toList text).isSome ||
        (after? "</".toList text).any (fun rest => rest.head?.any Char.isAlpha) ||
        (after? "<".toList text).any (fun rest => rest.head?.any Char.isAlpha) ||
        (after? openBraces text).any fun rest => (cut? closeBraces rest).isSome) := by
  unfold startsMarkup
  split
  next => simp [after?]
  next => simp [after?, openBraces]
  next c tail uncommented unslashed =>
    have comment : after? "<!--".toList ('<' :: c :: tail) = none := by
      rw [after?_eq_none_iff]
      rintro ⟨rest, equal⟩
      cases equal
      exact uncommented rest rfl rfl
    rw [comment]
    by_cases slash : c = '/'
    · cases tail with
      | nil => simp [after?, openBraces, slash]
      | cons d tail => exact absurd rfl (unslashed d tail slash)
    · simp [after?, openBraces, Ne.symm slash]
  next => simp [after?, openBraces]
  next tagless braceless =>
    cases text with
    | nil => rfl
    | cons c rest =>
        have unbraced : after? openBraces (c :: rest) = none := by
          rw [after?_eq_none_iff]
          rintro ⟨body, equal⟩
          exact braceless body equal.symm
        rw [unbraced]
        by_cases bracket : c = '<'
        · cases rest with
          | nil => simp [after?, bracket]
          | cons d rest => exact absurd (by rw [bracket]) (tagless d rest)
        · simp [after?, Ne.symm bracket]

theorem startsMarkup_of_comment? {text : List Char} (read : (comment? text).isSome = true) :
    startsMarkup text = true := by
  rw [comment?, Option.isSome_map, isSome_after?_iff] at read
  rcases read with ⟨rest, rfl⟩
  rfl

theorem startsMarkup_of_letter {c : Char} (letter : c.isAlpha = true) (rest : List Char) :
    startsMarkup ('<' :: c :: rest) = true := by
  have unslashed : c ≠ '/' := by
    rintro rfl
    exact absurd letter (by decide)
  have unmarked : c ≠ '!' := by
    rintro rfl
    exact absurd letter (by decide)
  unfold startsMarkup
  split <;> simp_all

theorem startsMarkup_of_openTag? {text : List Char} (read : (openTag? text).isSome = true) :
    startsMarkup text = true := by
  unfold openTag? at read
  split at read
  next c body =>
    split at read
    next letter => exact startsMarkup_of_letter letter body
    next => simp at read
  next => simp at read

theorem startsMarkup_of_interpolation? {text : List Char}
    (read : (interpolation? text).isSome = true) : startsMarkup text = true := by
  rcases Option.isSome_iff_exists.1 read with ⟨found, read⟩
  simp only [interpolation?, Option.bind_eq_bind, Option.bind_eq_some_iff] at read
  rcases read with ⟨body, begins, parts, cut, -⟩
  rw [after?_eq_some_iff.1 begins]
  simp [openBraces, startsMarkup, cut]

/-- Where no markup begins, and no closing tag with another sort of name, none is read. -/
theorem markup?_eq_none {text : List Char} (unmarked : startsMarkup text = false)
    (noClose : closeTag? text = none) : markup? text = none := by
  have noComment : comment? text = none := by
    rw [← Option.not_isSome_iff_eq_none]
    intro read
    simp [startsMarkup_of_comment? read] at unmarked
  have noOpen : openTag? text = none := by
    rw [← Option.not_isSome_iff_eq_none]
    intro read
    simp [startsMarkup_of_openTag? read] at unmarked
  have noInterpolation : interpolation? text = none := by
    rw [← Option.not_isSome_iff_eq_none]
    intro read
    simp [startsMarkup_of_interpolation? read] at unmarked
  simp [markup?, noComment, noClose, noOpen, noInterpolation]

/-- The text of every token but text begins markup. -/
theorem startsMarkup_written : (token : Token) → token.WellFormed → token.isText = false →
    (rest : List Char) → startsMarkup (token.written ++ rest) = true
  | .comment content, _, _, rest => rfl
  | .closeTag tag, named, _, rest => by
      rcases exists_of_isTagName named with ⟨c, tail, shape, letter⟩
      simp [written, shape, startsMarkup, letter]
  | .openTag tag props selfClosing, ⟨named, _⟩, _, rest => by
      rcases exists_of_isTagName named with ⟨c, tail, shape, letter⟩
      simp only [written, shape, List.cons_append]
      exact startsMarkup_of_letter letter _
  | .interpolation content, ⟨trimmed, absent⟩, _, rest => by
      have read := interpolation?_written trimmed absent rest
      apply startsMarkup_of_interpolation?
      simp [written, read]

/-- A run of text goes on through characters at which no markup begins. -/
theorem textRun_of_unmarked {run following : List Char} (unmarked : Unmarked following run) :
    textRun (run ++ following) = (run ++ (textRun following).1, (textRun following).2) := by
  induction run with
  | nil => rfl
  | cons c run ih => simp [textRun, unmarked.1, ih unmarked.2]

/-- A run of text ends where markup begins, or with the text. -/
theorem textRun_eq_nil {text : List Char} (ends : text = [] ∨ startsMarkup text = true) :
    textRun text = ([], text) := by
  cases text with
  | nil => rfl
  | cons c rest =>
      have marked : startsMarkup (c :: rest) = true := by simpa using ends
      simp [textRun, marked]

theorem scan_of_markup? {text rest : List Char} {token : Token}
    (read : markup? text = some (token, rest)) : scan text = token :: scan rest := by
  cases text with
  | nil => cases read
  | cons c text => rw [scan, next, read]

/-- A text that stands is read together with the run of text that follows it. -/
theorem scan_of_stands {run following : List Char} (proper : run ≠ [])
    (stands : Stands run following) :
    scan (run ++ following) =
      .text (String.ofList (run ++ (textRun following).1)) :: scan (textRun following).2 := by
  obtain ⟨noClose, unmarked⟩ := stands
  cases run with
  | nil => exact absurd rfl proper
  | cons c run =>
      have noMarkup := markup?_eq_none unmarked.1 noClose
      rw [List.cons_append, scan, next, noMarkup]
      simp only [textRun_of_unmarked unmarked.2, List.cons_append]

/-- A text that stands is read back as one token. -/
theorem scan_text {content : String} {following : List Char} (proper : content ≠ "")
    (stands : Stands content.toList following)
    (ends : following = [] ∨ startsMarkup following = true) :
    scan (content.toList ++ following) = .text content :: scan following := by
  have nonempty : content.toList ≠ [] := by simpa using proper
  rw [scan_of_stands nonempty stands, textRun_eq_nil ends, List.append_nil, String.ofList_toList]

/-- A token is read back from its text, whatever follows; a text has to end there. -/
theorem scan_written {token : Token} {following : List Char} (wellFormed : token.WellFormed)
    (quoteFree : token.QuoteFree) (placed : token.Placed following)
    (ends : token.isText = true → following = [] ∨ startsMarkup following = true) :
    scan (token.written ++ following) = token :: scan following := by
  cases isText : token.isText with
  | true =>
      cases token with
      | text content => exact scan_text wellFormed placed (ends isText)
      | _ => simp [Token.isText] at isText
  | false => exact scan_of_markup? (markup?_written token wellFormed quoteFree isText _ placed)

/-- What is written after a text begins markup. -/
theorem startsMarkup_writtenAll {token : Token} {tokens : List Token}
    (wellFormed : ∀ other ∈ tokens, other.WellFormed) (apart : Apart (token :: tokens))
    (isText : token.isText = true) (more : tokens ≠ []) (rest : List Char) :
    startsMarkup (writtenAll tokens ++ rest) = true := by
  cases tokens with
  | nil => exact absurd rfl more
  | cons next tokens =>
      rw [writtenAll_cons, List.append_assoc]
      exact startsMarkup_written next (wellFormed next (by simp)) (apart.1 isText next rfl) _

/-- Legible tokens are read back from their text. -/
theorem scan_writtenAll {tokens : List Token}
    (wellFormed : ∀ token ∈ tokens, token.WellFormed)
    (quoteFree : ∀ token ∈ tokens, token.QuoteFree)
    (apart : Apart tokens) (legible : Legible tokens) : scan (writtenAll tokens) = tokens := by
  induction tokens with
  | nil => rw [writtenAll_nil, scan]
  | cons token tokens ih =>
      have othersOk := (List.forall_mem_cons.1 wellFormed).2
      have later := ih othersOk (fun other member => quoteFree other (by simp [member])) apart.2
        legible.2
      have ends : token.isText = true →
          writtenAll tokens = [] ∨ startsMarkup (writtenAll tokens) = true := by
        intro isText
        by_cases more : tokens = []
        · exact .inl (by rw [more, writtenAll_nil])
        · right
          simpa using startsMarkup_writtenAll othersOk apart isText more []
      rw [writtenAll_cons, scan_written (wellFormed token (by simp)) (quoteFree token (by simp))
        legible.1 ends, later]

end Token

end SingleFile.Markup
