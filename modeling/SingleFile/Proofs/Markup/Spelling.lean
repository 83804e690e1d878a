import SingleFile.Proofs.Markup.Canonical
import SingleFile.Proofs.Markup.Preorder

/-!
# Spellings of an opening tag

An opening tag can be written in many ways. Values stand in quotes of either sort or
without any, blanks are free around the equals sign and between properties, where a
lone `/` may stand among them, and a directive with an argument has a shorthand. None
of this is kept: every spelling is read as the same tag with the same properties, and
what follows the tag is read as if the tag had been written otherwise.

`Property.Spelled` describes the ways to write a property and `TagTail.Spelled` those
to write what stands between the name of a tag and its end. Both say whether a value
without quotes comes last, since such a value takes in a `/` that follows it directly.

Main statement: `Forest.read_of_openTagSpelled`.
-/

namespace SingleFile.Markup

open SingleFile.Text

/-! ## Ways to write a property -/

/-- An argument as it stands after its marker. -/
def Argument.body (arg : Argument) : List Char :=
  if arg.isStatic then arg.content.toList else '[' :: (arg.content.toList ++ [']'])

namespace Property

/-- The shorthands for an argument's marker together with the name before it. -/
def shorthands : List (Char × String) := [(':', "bind"), ('@', "on"), ('#', "slot")]

/-- The ways to write the name of a property: in full, or with an argument by a shorthand.
A leading dot is short for a binding whose first modifier is `prop`, which is then not
written. -/
inductive NameSpelled : Property → List Char → Prop where
  | full (property : Property) : NameSpelled property property.writtenName
  | short {mark : Char} {name : String} (arg : Argument) (modifiers : List String)
      (exp : Option Node) :
      (mark, name) ∈ shorthands →
      NameSpelled (.directive name (some arg.toNode) modifiers exp)
        (mark :: (arg.body ++ DirectiveName.writtenModifiers modifiers))
  | dotted (arg : Argument) (modifiers : List String) (exp : Option Node) :
      NameSpelled (.directive "bind" (some arg.toNode) ("prop" :: modifiers) exp)
        ('.' :: (arg.body ++ DirectiveName.writtenModifiers modifiers))

/-- The ways to write a value after a name, and whether it then ends without a quote. -/
inductive BindingSpelled : Option (List Char) → (bare : Bool) → List Char → Prop where
  | absent : BindingSpelled none false []
  | quoted {before after value : List Char} {quote : Char} :
      (∀ c ∈ before, isTagBlank c = true) → (∀ c ∈ after, isTagBlank c = true) →
      quote = '"' ∨ quote = '\'' → quote ∉ value →
      BindingSpelled (some value) false
        (before ++ '=' :: (after ++ quote :: (value ++ [quote])))
  | bare {before after value : List Char} :
      (∀ c ∈ before, isTagBlank c = true) → (∀ c ∈ after, isTagBlank c = true) →
      value ≠ [] → (∀ c ∈ value, isTagBlank c = false ∧ c ≠ '>') →
      (∀ c ∈ value.head?, c ≠ '"' ∧ c ≠ '\'') →
      BindingSpelled (some value) true (before ++ '=' :: (after ++ value))

/-- The ways to write a property, and whether it ends with a value without quotes. A
directive without an expression may also have an empty value. -/
inductive Spelled : Property → (bare : Bool) → List Char → Prop where
  | bound {property : Property} {bare : Bool} {name binding : List Char} :
      NameSpelled property name → BindingSpelled property.bound? bare binding →
      Spelled property bare (name ++ binding)
  | unbound {name : String} {arg : Option Node} {modifiers : List String}
      {raw binding : List Char} :
      NameSpelled (.directive name arg modifiers none) raw →
      BindingSpelled (some []) false binding →
      Spelled (.directive name arg modifiers none) false (raw ++ binding)

end Property

namespace TagTail

/-- What stands between two properties: blanks, and between blanks any number of `/`. -/
inductive Gap : List Char → Prop where
  | blanks {blanks : List Char} :
      blanks ≠ [] → (∀ c ∈ blanks, isTagBlank c = true) → Gap blanks
  | slash {blanks gap : List Char} :
      blanks ≠ [] → (∀ c ∈ blanks, isTagBlank c = true) → Gap gap → Gap (blanks ++ '/' :: gap)

/-- The end of an opening tag, without blanks before it. -/
def ending (selfClosing : Bool) : List Char := if selfClosing then ['/', '>'] else ['>']

/-- The ways to write properties and the end of a tag after something that ends, or does
not end, with a value without quotes. -/
inductive Spelled (selfClosing : Bool) : (bare : Bool) → List Property → List Char → Prop where
  | finish {bare : Bool} {blanks : List Char} :
      (∀ c ∈ blanks, isTagBlank c = true) →
      (selfClosing = true → bare = true → blanks ≠ []) →
      Spelled selfClosing bare [] (blanks ++ ending selfClosing)
  | property {before bare : Bool} {gap text tail : List Char} {property : Property}
      {props : List Property} :
      Gap gap → property.Writable → property.Spelled bare text →
      Spelled selfClosing bare props tail →
      Spelled selfClosing before (property :: props) (gap ++ (text ++ tail))

end TagTail

/-- The ways to write an opening tag. -/
def Token.OpenTagSpelled (tag : String) (props : List Property) (selfClosing : Bool)
    (text : List Char) : Prop :=
  IsTagName tag ∧
    ∃ tail, TagTail.Spelled selfClosing false props tail ∧ text = '<' :: (tag.toList ++ tail)

/-! ## Names -/

namespace Argument

theorem read?_body {arg : Argument} (wellFormed : arg.WellFormed) {rest : List Char}
    (ends : ∀ c ∈ rest.head?, c = '.') : read? (arg.body ++ rest) = some (arg, rest) := by
  rcases arg with ⟨content, isStatic⟩
  cases isStatic with
  | true =>
      obtain ⟨nonempty, undotted, plain⟩ : content ≠ "" ∧ '.' ∉ content.toList ∧
        content.toList.head? ≠ some '[' := by simpa [WellFormed] using wellFormed
      simpa [body] using read?_plain (by simpa using nonempty) undotted plain ends
  | false =>
      have unclosed : ']' ∉ content.toList := by simpa [WellFormed] using wellFormed
      simpa [body] using read?_bracketed unclosed rest

end Argument

/-- A mark for an argument splits off the argument and the modifiers after it. -/
theorem DirectiveName.ofChars_marked {mark : Char} {arg : Argument} {modifiers : List String}
    (marks : mark = ':' ∨ mark = '@' ∨ mark = '#' ∨ mark = '.') (argOk : arg.WellFormed)
    (modifiersOk : ∀ modifier ∈ modifiers, modifier ≠ "" ∧ '.' ∉ modifier.toList) :
    ofChars (mark :: (arg.body ++ writtenModifiers modifiers)) =
      ⟨ofShorthand [mark], some arg, impliedModifiers [mark] ++ modifiers⟩ := by
  have read := Argument.read?_body argOk (head?_writtenModifiers modifiers)
  have later := readModifiers_writtenModifiers modifiersOk
  rcases marks with rfl | rfl | rfl | rfl <;>
    simp [ofChars, after?, ofTail, readArgument, opensArgument, read, later, ofShorthand,
      impliedModifiers]

namespace Property

theorem ofShorthand_of_mem {mark : Char} {name : String} (short : (mark, name) ∈ shorthands) :
    (mark = ':' ∨ mark = '@' ∨ mark = '#') ∧ DirectiveName.ofShorthand [mark] = name ∧
      DirectiveName.impliedModifiers [mark] = [] := by
  simp only [shorthands, List.mem_cons, Prod.mk.injEq, List.not_mem_nil, or_false] at short
  rcases short with ⟨rfl, rfl⟩ | ⟨rfl, rfl⟩ | ⟨rfl, rfl⟩ <;> exact ⟨by simp, rfl, rfl⟩

theorem isDirective_of_nameSpelled {name : String} {arg : Option Node} {modifiers : List String}
    {exp : Option Node} {raw : List Char}
    (wellFormed : (Property.directive name arg modifiers exp).WellFormed)
    (spelled : NameSpelled (.directive name arg modifiers exp) raw) : isDirective raw = true := by
  cases spelled with
  | full => exact isDirective_written (wellFormed_parts wellFormed) wellFormed.1
  | short arg _ _ short =>
      rcases (ofShorthand_of_mem short).1 with rfl | rfl | rfl <;> rfl
  | dotted => rfl

/-- A name in any of its spellings, with the value, gives the property. -/
theorem ofWritten_of_nameSpelled {property : Property} {raw : List Char}
    (wellFormed : property.WellFormed) (spelled : NameSpelled property raw) :
    ofWritten raw property.bound? = property := by
  cases spelled with
  | full => exact ofWritten_writtenName property wellFormed
  | @short mark name arg modifiers exp short =>
      have directive := isDirective_of_nameSpelled wellFormed (.short arg modifiers exp short)
      obtain ⟨-, -, args, modifiersOk, exps⟩ := wellFormed
      rcases ofShorthand_of_mem short with ⟨marks, named, implied⟩
      have marked : mark = ':' ∨ mark = '@' ∨ mark = '#' ∨ mark = '.' := by
        rcases marks with rfl | rfl | rfl <;> simp
      have split := DirectiveName.ofChars_marked marked (args arg.toNode rfl) modifiersOk
      rw [named, implied] at split
      exact ofWritten_of_ofChars directive split exps
  | dotted arg modifiers exp =>
      obtain ⟨-, -, args, modifiersOk, exps⟩ := wellFormed
      have later := (List.forall_mem_cons.1 modifiersOk).2
      have split := @DirectiveName.ofChars_marked '.' arg modifiers (by simp) (args arg.toNode rfl)
        later
      exact ofWritten_of_ofChars rfl split exps

theorem passed_body {arg : Argument} (ok : arg.toNode.IsCanonicalArgument) : Passed arg.body := by
  rcases arg with ⟨content, isStatic⟩
  cases isStatic with
  | true => exact IsSegment.passed ok
  | false => exact passed_of_bracketed ok

/-- Reading a name goes through each of its spellings. -/
theorem passed_of_nameSpelled {property : Property} {raw : List Char}
    (writable : property.Writable) (spelled : NameSpelled property raw) : Passed raw := by
  cases spelled with
  | full => exact passed_writtenName property writable
  | @short mark name arg modifiers exp short =>
      obtain ⟨-, -, args, segments, -⟩ := writable
      have marked : Passed [mark] := by
        rcases (ofShorthand_of_mem short).1 with rfl | rfl | rfl <;>
          exact passed_of_plain (by decide)
      exact marked.append ((passed_body (args _ rfl)).append (passed_writtenModifiers segments))
  | dotted arg modifiers exp =>
      obtain ⟨-, -, args, segments, -⟩ := writable
      have dot : Passed ['.'] := passed_of_plain (by decide)
      have later := (List.forall_mem_cons.1 segments).2
      exact dot.append ((passed_body (args _ rfl)).append (passed_writtenModifiers later))

theorem begins_of_isPlainChar {c : Char} (plain : isPlainChar c = true) : Begins c := by
  simp only [isPlainChar, Bool.not_eq_true', Bool.or_eq_false_iff, decide_eq_false_iff_not]
    at plain
  rcases plain with ⟨⟨⟨⟨⟨⟨unblank, unequal⟩, unclosing⟩, unslashed⟩, -⟩, -⟩, -⟩
  exact ⟨unslashed, unequal, unclosing, unblank⟩

theorem begins_of_nameSpelled {property : Property} {raw : List Char}
    (writable : property.Writable) (spelled : NameSpelled property raw) :
    ∃ c name, raw = c :: name ∧ Begins c := by
  cases spelled with
  | full =>
      have whole : readName false (property.writtenName ++ ['>']) =
          (property.writtenName, ['>']) := by
        simpa [readName, endsName] using passed_writtenName property writable ['>']
      exact begins_writtenName (property.wellFormed_of_writable writable) whole
  | short arg _ _ short =>
      refine ⟨_, _, rfl, begins_of_isPlainChar ?_⟩
      rcases (ofShorthand_of_mem short).1 with rfl | rfl | rfl <;> decide
  | dotted => exact ⟨'.', _, rfl, begins_of_isPlainChar (by decide)⟩

/-! ## Values -/

theorem readBinding_equals {before text : List Char}
    (blank : ∀ c ∈ before, isTagBlank c = true) :
    readBinding (before ++ '=' :: text) =
      (some (readValue (text.dropWhile isTagBlank)).1,
        (readValue (text.dropWhile isTagBlank)).2) := by
  have sign : (before ++ '=' :: text).dropWhile isTagBlank = '=' :: text :=
    dropWhile_append blank (forall_head?_cons (by decide) text)
  simp only [readBinding, sign]

theorem readValue_bare {value following : List Char} (proper : value ≠ [])
    (every : ∀ c ∈ value, isTagBlank c = false ∧ c ≠ '>')
    (unquoted : ∀ c ∈ value.head?, c ≠ '"' ∧ c ≠ '\'')
    (stops : ∀ c ∈ following.head?, isTagBlank c = true ∨ c = '>') :
    readValue (value ++ following) = (value, following) := by
  have inside : ∀ c ∈ value, (!isTagBlank c && c != '>') = true := by
    intro c member
    simp [every c member]
  have outside : ∀ c ∈ following.head?, (!isTagBlank c && c != '>') = false := by
    intro c head
    rcases stops c head with blank | rfl
    · simp [blank]
    · rfl
  have taken := takeWhile_append inside outside
  have dropped := dropWhile_append inside outside
  cases value with
  | nil => exact absurd rfl proper
  | cons c value =>
      rw [List.cons_append] at taken dropped ⊢
      simp [readValue, unquoted c rfl, taken, dropped]

/-- A value is read from each of its spellings, when what follows does not continue it. -/
theorem readBinding_of_bindingSpelled {value : Option (List Char)} {bare : Bool}
    {binding following : List Char} (spelled : BindingSpelled value bare binding)
    (unbound : readBinding following = (none, following))
    (stops : bare = true → ∀ c ∈ following.head?, isTagBlank c = true ∨ c = '>') :
    readBinding (binding ++ following) = (value, following) := by
  cases spelled with
  | absent => exact unbound
  | @quoted before after value quote beforeBlank afterBlank isQuote quoteFree =>
      have begins : ∀ c ∈ (quote :: (value ++ quote :: following)).head?, isTagBlank c = false := by
        apply forall_head?_cons
        rcases isQuote with rfl | rfl <;> rfl
      have skipped := dropWhile_append afterBlank begins
      simp only [List.append_assoc, List.cons_append, List.nil_append,
        readBinding_equals beforeBlank, skipped, readValue_quoted isQuote quoteFree]
  | @bare before after value beforeBlank afterBlank proper every unquoted =>
      have begins : ∀ c ∈ (value ++ following).head?, isTagBlank c = false := by
        cases value with
        | nil => exact absurd rfl proper
        | cons c value => exact forall_head?_cons (every c (by simp)).1 _
      have skipped := dropWhile_append afterBlank begins
      simp only [List.append_assoc, List.cons_append, readBinding_equals beforeBlank, skipped,
        readValue_bare proper every unquoted (stops rfl)]

/-- Every spelling of a value ends the name before it, and so does what follows where no
value is written. -/
theorem readName_bindingSpelled {value : Option (List Char)} {bare : Bool}
    {binding following : List Char} (spelled : BindingSpelled value bare binding)
    (ends : readName false following = ([], following)) :
    readName false (binding ++ following) = ([], binding ++ following) := by
  have signed {before : List Char} (blank : ∀ c ∈ before, isTagBlank c = true)
      (text : List Char) : readName false (before ++ '=' :: text) = ([], before ++ '=' :: text) := by
    cases before with
    | nil => rfl
    | cons c before => simp [readName, endsName, blank c (by simp)]
  cases spelled with
  | absent => exact ends
  | quoted blank _ _ _ | bare blank _ _ _ _ =>
      rw [List.append_assoc]
      exact signed blank _

/-- A name that ends where a value begins is read with this value. -/
theorem read?_of_passed {raw binding following : List Char} {value : Option (List Char)}
    {bare : Bool} (passed : Passed raw) (proper : raw ≠ [])
    (bound : BindingSpelled value bare binding)
    (ends : readName false following = ([], following))
    (unbound : readBinding following = (none, following))
    (stops : bare = true → ∀ c ∈ following.head?, isTagBlank c = true ∨ c = '>') :
    read? (raw ++ binding ++ following) = some (ofWritten raw value, following) := by
  have named : readName false (raw ++ (binding ++ following)) = (raw, binding ++ following) := by
    rw [passed, readName_bindingSpelled bound ends, List.append_nil]
  have valued := readBinding_of_bindingSpelled bound unbound stops
  rw [List.append_assoc]
  simp only [read?, named, valued, proper, if_false]

/-- A property is read from each of its spellings, when what follows continues neither the
name nor the value. -/
theorem read?_of_spelled {property : Property} {bare : Bool} {text following : List Char}
    (writable : property.Writable) (spelled : property.Spelled bare text)
    (ends : readName false following = ([], following))
    (unbound : readBinding following = (none, following))
    (stops : bare = true → ∀ c ∈ following.head?, isTagBlank c = true ∨ c = '>') :
    read? (text ++ following) = some (property, following) := by
  have wellFormed := property.wellFormed_of_writable writable
  have proper {raw : List Char} (named : NameSpelled property raw) : raw ≠ [] := by
    rcases begins_of_nameSpelled writable named with ⟨c, name, rfl, -⟩
    exact List.cons_ne_nil c name
  cases spelled with
  | bound named bound =>
      have read := read?_of_passed (passed_of_nameSpelled writable named) (proper named) bound ends
        unbound stops
      rw [read, ofWritten_of_nameSpelled wellFormed named]
  | unbound named bound =>
      have read := read?_of_passed (passed_of_nameSpelled writable named) (proper named) bound ends
        unbound stops
      have directive := isDirective_of_nameSpelled wellFormed named
      -- an empty value is dropped with a directive
      have dropped := ofWritten_of_nameSpelled wellFormed named
      simp only [bound?, ofWritten, directive, if_true] at dropped
      rw [read, ofWritten, if_pos directive]
      exact congrArg (fun found => some (found, following)) dropped

theorem begins_of_spelled {property : Property} {bare : Bool} {text : List Char}
    (writable : property.Writable) (spelled : property.Spelled bare text) :
    ∃ c tail, text = c :: tail ∧ Begins c := by
  cases spelled with
  | bound named _ | unbound named _ =>
      rcases begins_of_nameSpelled writable named with ⟨c, name, rfl, begins⟩
      exact ⟨c, _, rfl, begins⟩

end Property

/-! ## Tags -/

theorem isTagChar_of_isTagBlank {c : Char} (blank : isTagBlank c = true) : isTagChar c = false := by
  simp only [isTagBlank, Bool.or_eq_true, decide_eq_true_eq] at blank
  rcases blank with (((rfl | rfl) | rfl) | rfl) | rfl <;> rfl

theorem TagPart.next_blanks {blanks : List Char} (blank : ∀ c ∈ blanks, isTagBlank c = true)
    (text : List Char) : TagPart.next (blanks ++ text) = TagPart.next text := by
  simp only [TagPart.next, List.dropWhile_append_of_pos blank]

/-- A `/` that does not stand before `>` is passed over. -/
theorem TagPart.next_slash {c : Char} (other : c ≠ '>') (rest : List Char) :
    TagPart.next ('/' :: c :: rest) = (.noise, c :: rest) := by
  have slash : ('/' :: c :: rest).dropWhile isTagBlank = '/' :: c :: rest := rfl
  rw [TagPart.next, slash]
  split
  next equal => cases equal
  next equal =>
    simp only [List.cons.injEq, true_and] at equal
    exact absurd equal.1 other
  next equal => simp at equal
  next equal =>
    cases equal
    rfl
  next unslashed equal =>
    simp only [List.cons.injEq] at equal
    exact absurd equal.1.symm unslashed

namespace TagTail

theorem read_noise {text rest : List Char} (part : TagPart.next text = (.noise, rest)) :
    read text = read rest := by
  rw [read]
  split <;> simp_all

/-- What is read depends on what stands next only. -/
theorem read_congr {text other : List Char} (same : TagPart.next text = TagPart.next other) :
    read text = read other := by
  rcases part : TagPart.next other with ⟨part | part | _, rest⟩
  · rw [read_finish (same.trans part), read_finish part]
  · rw [read_property (same.trans part), read_property part]
  · rw [read_noise (same.trans part), read_noise part]

theorem Gap.head {gap : List Char} (isGap : Gap gap) :
    ∃ c tail, gap = c :: tail ∧ isTagBlank c = true := by
  cases isGap with
  | blanks proper blank =>
      obtain ⟨c, tail, rfl⟩ := List.exists_cons_of_ne_nil proper
      exact ⟨c, tail, rfl, blank c (by simp)⟩
  | slash proper blank _ =>
      obtain ⟨c, tail, rfl⟩ := List.exists_cons_of_ne_nil proper
      exact ⟨c, _, rfl, blank c (by simp)⟩

/-- What stands between properties is passed over. -/
theorem read_gap {gap : List Char} (isGap : Gap gap) (text : List Char) :
    read (gap ++ text) = read text := by
  induction isGap with
  | blanks _ blank => exact read_congr (TagPart.next_blanks blank text)
  | @slash blanks gap _ blank isGap ih =>
      have lone : TagPart.next ('/' :: (gap ++ text)) = (.noise, gap ++ text) := by
        rcases isGap.head with ⟨c, tail, rfl, unclosing⟩
        have other : c ≠ '>' := by
          rintro rfl
          cases unclosing
        exact TagPart.next_slash other (tail ++ text)
      rw [List.append_assoc, List.cons_append, read_congr (TagPart.next_blanks blank _),
        read_noise lone, ih]

/-- The rest of a tag begins with a character that ends the names before it, and also a
value without quotes where one stands before it. -/
theorem Spelled.head {selfClosing bare : Bool} {props : List Property} {tail : List Char}
    (spelled : Spelled selfClosing bare props tail) (rest : List Char) :
    ∃ c more, tail ++ rest = c :: more ∧ isTagChar c = false ∧
      Property.endsName c more = true ∧ (bare = true → isTagBlank c = true ∨ c = '>') := by
  have blankEnds {c : Char} (blank : isTagBlank c = true) (more : List Char) :
      Property.endsName c more = true := by simp [Property.endsName, blank]
  cases spelled with
  | @finish _ blanks blank apart =>
      cases blanks with
      | cons c blanks =>
          have here := blank c (by simp)
          exact ⟨c, _, rfl, isTagChar_of_isTagBlank here, blankEnds here _, fun _ => .inl here⟩
      | nil =>
          cases selfClosing with
          | true => exact ⟨'/', _, rfl, rfl, rfl, fun isBare => absurd rfl (apart rfl isBare)⟩
          | false => exact ⟨'>', _, rfl, rfl, rfl, fun _ => .inr rfl⟩
  | property isGap _ _ _ =>
      rcases isGap.head with ⟨c, more, rfl, here⟩
      exact ⟨c, _, rfl, isTagChar_of_isTagBlank here, blankEnds here _, fun _ => .inl here⟩

/-- No value stands at the beginning of the rest of a tag. -/
theorem Spelled.readBinding_eq {selfClosing bare : Bool} {props : List Property}
    {tail : List Char} (spelled : Spelled selfClosing bare props tail) (rest : List Char) :
    Property.readBinding (tail ++ rest) = (none, tail ++ rest) := by
  apply Property.readBinding_eq_none
  cases spelled with
  | @finish _ blanks blank _ =>
      rw [List.append_assoc, List.dropWhile_append_of_pos blank]
      cases selfClosing <;> exact forall_head?_cons (by decide) _
  | @property _ _ gap text tail property props isGap writable spelled _ =>
      rw [List.append_assoc]
      cases isGap with
      | blanks _ blank =>
          rcases property.begins_of_spelled writable spelled with ⟨c, more, rfl, begins⟩
          rw [List.dropWhile_append_of_pos blank, List.cons_append, List.cons_append,
            List.dropWhile_cons_of_neg (by simp [begins.2.2.2])]
          simpa using begins.2.1
      | slash _ blank _ =>
          rw [List.append_assoc, List.dropWhile_append_of_pos blank]
          exact forall_head?_cons (by decide) _

/-- The rest of a tag is read from each of its spellings, whatever follows the tag. -/
theorem read_spelled {selfClosing bare : Bool} {props : List Property} {tail : List Char}
    (spelled : Spelled selfClosing bare props tail) (rest : List Char) :
    read (tail ++ rest) = ⟨props, selfClosing, rest⟩ := by
  induction spelled with
  | @finish _ blanks blank _ =>
      rw [List.append_assoc, read_congr (TagPart.next_blanks blank _)]
      apply read_finish
      cases selfClosing <;> rfl
  | @property _ bare gap text tail property props isGap writable spelled later ih =>
      rcases later.head rest with ⟨c, more, shape, -, ends, stops⟩
      have whole : Property.readName false (tail ++ rest) = ([], tail ++ rest) := by
        rw [shape, Property.readName, ends]
        rfl
      have unbound := later.readBinding_eq rest
      have found := Property.read?_of_spelled writable spelled whole unbound (by
        intro isBare
        rw [shape]
        exact forall_head?_cons (stops isBare) more)
      rcases property.begins_of_spelled writable spelled with ⟨d, name, rfl, begins⟩
      have part : TagPart.next (d :: (name ++ (tail ++ rest))) = (.property property, tail ++ rest) :=
        TagPart.next_property begins (List.dropWhile_cons_of_neg (by simp [begins.2.2.2])) found
      rw [List.append_assoc, read_gap isGap, List.append_assoc, List.cons_append,
        read_property part, ih]

end TagTail

namespace Token

/-- An opening tag is read from each of its spellings, whatever follows it. -/
theorem scan_of_openTagSpelled {tag : String} {props : List Property} {selfClosing : Bool}
    {text : List Char} (spelled : OpenTagSpelled tag props selfClosing text) (rest : List Char) :
    scan (text ++ rest) = .openTag tag props selfClosing :: scan rest := by
  rcases spelled with ⟨named, tail, spelled, rfl⟩
  rcases exists_of_isTagName named with ⟨c, letters, shape, letter⟩
  have stops : ∀ d ∈ (tail ++ rest).head?, isTagChar d = false := by
    rcases spelled.head rest with ⟨d, more, begins, other, -⟩
    rw [begins]
    exact forall_head?_cons other more
  have taken := takeWhile_append named.2 stops
  have dropped := dropWhile_append named.2 stops
  apply scan_of_markup?
  apply markup?_of_openTag?
  simp only [shape, List.cons_append, List.append_assoc] at taken dropped ⊢
  simp only [openTag?, letter, if_true, taken, dropped, TagTail.read_spelled spelled rest,
    ← shape, String.ofList_toList]

end Token

/-! ## The element -/

namespace Forest

/-- The first node of a forest begins the list of its nodes. -/
theorem exists_element_of_preorder {forest others : List Node} {tag : String}
    {props : List Property} {selfClosing : Bool}
    (begins : joinTexts (preorder forest) = .element tag props [] selfClosing :: others) :
    ∃ children later, forest = .element tag props children selfClosing :: later := by
  cases forest with
  | nil => cases begins
  | cons node nodes =>
      cases node with
      | element tag props children selfClosing =>
          simp only [preorder, Node.preorder, List.cons_append, joinTexts, List.cons.injEq,
            Node.element.injEq, true_and] at begins
          rcases begins.1 with ⟨rfl, rfl, rfl⟩
          exact ⟨children, nodes, rfl⟩
      | text content =>
          simp only [preorder, Node.preorder, List.cons_append, joinTexts] at begins
          rcases exists_prependText content (joinTexts (preorder nodes)) with ⟨joined, later, shape⟩
          simp [shape] at begins
      | _ => simp [preorder, Node.preorder, joinTexts] at begins

/-- All spellings of an opening tag are read alike, whatever follows: as a tag with these
properties and this end, after which reading goes on. The first root is the element with
this tag, and the forest does not depend on the spelling. -/
theorem read_of_openTagSpelled {tag : String} {props : List Property} {selfClosing : Bool}
    {text : List Char} (spelled : Token.OpenTagSpelled tag props selfClosing text)
    (rest : List Char) :
    Token.scan (text ++ rest) = .openTag tag props selfClosing :: Token.scan rest ∧
      (∃ children later, read (String.ofList (text ++ rest)) =
        .element tag props children selfClosing :: later) ∧
      ∀ other, Token.OpenTagSpelled tag props selfClosing other →
        read (String.ofList (other ++ rest)) = read (String.ofList (text ++ rest)) := by
  have scanned {text : List Char} (spelled : Token.OpenTagSpelled tag props selfClosing text) :
      read (String.ofList (text ++ rest)) =
        ofTokens (.openTag tag props selfClosing :: Token.scan rest) := by
    rw [read, String.toList_ofList, Token.scan_of_openTagSpelled spelled]
  refine ⟨Token.scan_of_openTagSpelled spelled rest, ?_, fun other otherSpelled => ?_⟩
  · rw [scanned spelled]
    exact exists_element_of_preorder (joinTexts_preorder_ofTokens _)
  · rw [scanned otherSpelled, scanned spelled]

theorem read_of_openTagSpelled_sample :
    let props : List Property :=
      [.attribute "a" (some (.text "it's")),
        .directive "on" (some (.expression "k>='x'" false)) ["stop"] (some (.expression "f/" false)),
        .directive "bind" (some (.expression "p" true)) ["prop", "m"] none,
        .directive "if" none [] none]
    let text := "<x.1\t/ a = \"it's\" @[k>='x'].stop=f/\n.p.m v-if=''/>".toList
    let other := "<x.1 a=\"it's\" v-on:[k>='x'].stop='f/' v-bind:p.prop.m v-if />".toList
    let rest := "='b'></x.1>".toList
    Token.OpenTagSpelled "x.1" props true text ∧ Token.OpenTagSpelled "x.1" props true other ∧
      (∃ children later, read (String.ofList (text ++ rest)) =
        .element "x.1" props children true :: later) ∧
      read (String.ofList (other ++ rest)) = read (String.ofList (text ++ rest)) := by
  intro props text other rest
  have space : TagTail.Gap [' '] := .blanks (by decide) (by decide)
  have slashed : TagTail.Gap "\t/ ".toList :=
    @TagTail.Gap.slash ['\t'] [' '] (by decide) (by decide) space
  have line : TagTail.Gap ['\n'] := .blanks (by decide) (by decide)
  have quoted (value : List Char) {quote : Char} (isQuote : quote = '"' ∨ quote = '\'')
      (quoteFree : quote ∉ value) :=
    @Property.BindingSpelled.quoted [] [] value quote (by decide) (by decide) isQuote quoteFree
  have spelled : Token.OpenTagSpelled "x.1" props true text := by
    refine ⟨by decide, _, .property slashed (by decide)
      (.bound (.full _) (@Property.BindingSpelled.quoted [' '] [' '] "it's".toList '"'
        (by decide) (by decide) (.inl rfl) (by decide)))
      (.property space (by decide)
        (.bound (@Property.NameSpelled.short '@' "on" ⟨"k>='x'", false⟩ _ _ (by decide))
          (@Property.BindingSpelled.bare [] [] "f/".toList (by decide) (by decide) (by decide)
            (by decide) (by simp)))
        (.property line (by decide) (.bound (.dotted ⟨"p", true⟩ _ _) .absent)
          (.property space (by decide) (.unbound (.full _) (quoted [] (.inr rfl) (by decide)))
            (@TagTail.Spelled.finish _ _ [] (by decide) (by decide))))), ?_⟩
    decide
  have otherSpelled : Token.OpenTagSpelled "x.1" props true other := by
    refine ⟨by decide, _, .property space (by decide)
      (.bound (.full _) (quoted "it's".toList (.inl rfl) (by decide)))
      (.property space (by decide) (.bound (.full _) (quoted "f/".toList (.inr rfl) (by decide)))
        (.property space (by decide) (.bound (.full _) .absent)
          (.property space (by decide) (.bound (.full _) .absent)
            (@TagTail.Spelled.finish _ _ [' '] (by decide) (by decide))))), ?_⟩
    decide
  rcases read_of_openTagSpelled spelled rest with ⟨-, first, alike⟩
  exact ⟨spelled, otherSpelled, first, alike other otherSpelled⟩

end Forest

end SingleFile.Markup
