import SingleFile.Block.Tag
import SingleFile.Proofs.Text.Search

/-!
# Tags of blocks, written and read

The attributes of a block are read back from its opening tag, when their names
are legal and their values hold no double quote, and every attribute that is read
has a legal name. Raw content ends at its first closing tag; what precedes it has
no closing tag of its own, and conversely content without one is found whole.

Main statements: `Block.readOpenTail?_renderAll` and `Block.cutAt?_closing?`.
-/

namespace SingleFile

open SingleFile.Text

namespace Attr

/-- A name that stands in an opening tag. -/
def Legal (attr : Attr) : Prop :=
  attr.name ≠ "" ∧ ∀ c ∈ attr.name.toList, Block.isNameChar c = true

/-- No double quote in the value, where it would end early. -/
def QuoteFree (attr : Attr) : Prop := ∀ value ∈ attr.value, '"' ∉ value.toList

instance (attr : Attr) : Decidable attr.Legal := inferInstanceAs (Decidable (_ ∧ _))

instance (attr : Attr) : Decidable attr.QuoteFree :=
  inferInstanceAs (Decidable (∀ value ∈ attr.value, '"' ∉ value.toList))

/-- An attribute's value as it stands after the name. -/
def writtenValue (value : Option String) : List Char := writtenBinding (value.map String.toList)

theorem toList_render (attr : Attr) :
    attr.render.toList = ' ' :: (attr.name.toList ++ writtenValue attr.value) := by
  rcases attr with ⟨name, value⟩
  cases value with
  | none => simp [render, writtenValue, writtenBinding]
  | some value => simp [render, writtenValue, writtenBinding]

/-- The text of attributes, in front of what follows them in the tag. -/
theorem toList_renderAll_cons (attr : Attr) (attrs : List Attr) (rest : List Char) :
    (renderAll (attr :: attrs)).toList ++ rest =
      ' ' :: (attr.name.toList ++
        (writtenValue attr.value ++ ((renderAll attrs).toList ++ rest))) := by
  simp [renderAll, toList_render]

theorem exists_of_legal {attr : Attr} (legal : attr.Legal) :
    ∃ c rest, attr.name.toList = c :: rest ∧ Block.isNameChar c = true := by
  cases chars : attr.name.toList with
  | nil => exact absurd (String.toList_eq_nil_iff.1 chars) legal.1
  | cons c rest => exact ⟨c, rest, rfl, legal.2 c (by simp [chars])⟩

end Attr

namespace Block

open Attr

/-! ## Opening tags -/

theorem isNameChar_eq_false {c : Char} (ends : c = ' ' ∨ c = '=' ∨ c = '>') :
    isNameChar c = false := by
  rcases ends with rfl | rfl | rfl <;> rfl

theorem ne_of_isNameChar {c : Char} (nameChar : isNameChar c = true) :
    isBlockBlank c = false ∧ c ≠ '=' := by
  simp only [isNameChar, Bool.not_eq_true', Bool.or_eq_false_iff, decide_eq_false_iff_not]
    at nameChar
  exact ⟨nameChar.1.1.1.1.1, nameChar.1.1.1.1.2⟩

/-- What follows an attribute's name in a tag begins with a character that ends names. -/
theorem head_following (value : Option String) (attrs : List Attr) (rest : List Char) :
    ∃ next tail, (next = ' ' ∨ next = '=' ∨ next = '>') ∧
      writtenValue value ++ ((renderAll attrs).toList ++ '>' :: rest) = next :: tail := by
  cases value with
  | some value => exact ⟨'=', _, .inr (.inl rfl), rfl⟩
  | none =>
      cases attrs with
      | nil => exact ⟨'>', rest, .inr (.inr rfl), rfl⟩
      | cons attr attrs => exact ⟨' ', _, .inl rfl, toList_renderAll_cons attr attrs _⟩

/-- A value in double quotes is read back. -/
theorem readBinding?_writtenValue {value : String} (quoteFree : '"' ∉ value.toList)
    (rest : List Char) :
    readBinding? (writtenValue (some value) ++ rest) = some (value.toList, rest) := by
  have cut := cut?_singleton_append quoteFree rest
  simp [writtenValue, writtenBinding, readBinding?, isBlockBlank, after?, readValue?, cut]

/-- No value stands before the next attribute, nor before the end of the tag. -/
theorem readBinding?_renderAll {attrs : List Attr} (legal : ∀ attr ∈ attrs, attr.Legal)
    (rest : List Char) : readBinding? ((renderAll attrs).toList ++ '>' :: rest) = none := by
  cases attrs with
  | nil => simp [renderAll, readBinding?, isBlockBlank, after?]
  | cons attr attrs =>
      rcases exists_of_legal (legal attr (by simp)) with ⟨c, name, shape, nameChar⟩
      rcases ne_of_isNameChar nameChar with ⟨unblank, unequal⟩
      have space : isBlockBlank ' ' = true := rfl
      rw [toList_renderAll_cons, shape]
      simp [readBinding?, space, unblank, after?, Ne.symm unequal]

/-- A written attribute is read back. -/
theorem readSpacedAttr?_renderAll {attr : Attr} {attrs : List Attr}
    (legal : ∀ other ∈ attr :: attrs, other.Legal) (quoteFree : attr.QuoteFree)
    (rest : List Char) :
    readSpacedAttr? ((renderAll (attr :: attrs)).toList ++ '>' :: rest) =
      some (attr, (renderAll attrs).toList ++ '>' :: rest) := by
  rcases List.forall_mem_cons.1 legal with ⟨attrLegal, attrsLegal⟩
  have stops : ∀ c ∈ (writtenValue attr.value ++ ((renderAll attrs).toList ++ '>' :: rest)).head?,
      isNameChar c = false := by
    rcases head_following attr.value attrs rest with ⟨next, tail, ends, shape⟩
    rw [shape]
    rintro c ⟨⟩
    exact isNameChar_eq_false ends
  have taken := takeWhile_append attrLegal.2 stops
  have dropped := dropWhile_append attrLegal.2 stops
  rcases exists_of_legal attrLegal with ⟨c, name, shape, nameChar⟩
  have unblank : isBlockBlank c = false := (ne_of_isNameChar nameChar).1
  have space : isBlockBlank ' ' = true := rfl
  have skipped : (attr.name.toList ++ (writtenValue attr.value ++
      ((renderAll attrs).toList ++ '>' :: rest))).dropWhile isBlockBlank =
      attr.name.toList ++
        (writtenValue attr.value ++ ((renderAll attrs).toList ++ '>' :: rest)) := by
    apply dropWhile_of_head
    simp [shape, unblank]
  have named : attr.name.toList ≠ [] := by simp [shape]
  rw [toList_renderAll_cons, readSpacedAttr?, if_pos space, skipped]
  simp only [readAttr?, taken, dropped, named, if_false, String.ofList_toList]
  rcases attr with ⟨name, value⟩
  cases value with
  | none =>
      have unbound : readBinding? (writtenValue none ++ ((renderAll attrs).toList ++
          '>' :: rest)) = none := readBinding?_renderAll attrsLegal rest
      rw [unbound]
      rfl
  | some value =>
      rw [readBinding?_writtenValue (quoteFree value rfl)]
      simp

theorem readAttrs_of_readSpacedAttr? {text rest : List Char} {attr : Attr}
    (read : readSpacedAttr? text = some (attr, rest)) :
    readAttrs text = (attr :: (readAttrs rest).1, (readAttrs rest).2) := by
  rw [readAttrs]
  split <;> simp_all

theorem readAttrs_renderAll {attrs : List Attr} (legal : ∀ attr ∈ attrs, attr.Legal)
    (quoteFree : ∀ attr ∈ attrs, attr.QuoteFree) (rest : List Char) :
    readAttrs ((renderAll attrs).toList ++ '>' :: rest) = (attrs, '>' :: rest) := by
  induction attrs with
  | nil =>
      have stops : readSpacedAttr? ('>' :: rest) = none := by simp [readSpacedAttr?, isBlockBlank]
      change readAttrs ('>' :: rest) = _
      rw [readAttrs]
      split <;> simp_all
  | cons attr attrs ih =>
      have read := readSpacedAttr?_renderAll legal (quoteFree attr (by simp)) rest
      have later := ih (fun other member => legal other (by simp [member]))
        (fun other member => quoteFree other (by simp [member]))
      rw [readAttrs_of_readSpacedAttr? read, later]

/-- The rest of a written opening tag is read back. -/
theorem readOpenTail?_renderAll {attrs : List Attr} (legal : ∀ attr ∈ attrs, attr.Legal)
    (quoteFree : ∀ attr ∈ attrs, attr.QuoteFree) (rest : List Char) :
    readOpenTail? ((renderAll attrs).toList ++ '>' :: rest) = some (attrs, rest) := by
  simp [readOpenTail?, readAttrs_renderAll legal quoteFree rest, isBlockBlank, after?]

theorem legal_of_readAttr? {text rest : List Char} {attr : Attr}
    (read : readAttr? text = some (attr, rest)) : attr.Legal := by
  have nameChars : ∀ c ∈ text.takeWhile isNameChar, isNameChar c = true := fun _ =>
    holds_of_mem_takeWhile
  simp only [readAttr?] at read
  split at read
  next => simp at read
  next named =>
    split at read
    next =>
      cases read
      exact ⟨by simpa using named, by simpa using nameChars⟩
    next =>
      cases read
      exact ⟨by simpa using named, by simpa using nameChars⟩

/-- Every attribute that is read has a legal name. -/
theorem legal_readAttrs (text : List Char) : ∀ attr ∈ (readAttrs text).1, attr.Legal := by
  fun_induction readAttrs text with
  | case1 text attr rest read _ ih =>
      intro other member
      rcases List.mem_cons.1 member with rfl | member
      · unfold readSpacedAttr? at read
        split at read
        next => simp at read
        next =>
          split at read
          next => exact legal_of_readAttr? read
          next => simp at read
      · exact ih other member
  | case2 => simp

theorem legal_of_readOpenTail? {text rest : List Char} {attrs : List Attr}
    (read : readOpenTail? text = some (attrs, rest)) : ∀ attr ∈ attrs, attr.Legal := by
  rcases Option.map_eq_some_iff.1 read with ⟨tail, -, equal⟩
  cases equal
  exact legal_readAttrs text

/-! ## Closing tags -/

/-- Blanks may stand between the name in a closing tag and its end. -/
theorem closing?_eq_some_iff {tag text rest : List Char} :
    closing? tag text = some rest ↔
      ∃ blanks, (∀ c ∈ blanks, isBlockBlank c = true) ∧
        text = '<' :: '/' :: (tag ++ (blanks ++ '>' :: rest)) := by
  simp only [closing?, Option.bind_eq_bind, Option.bind_eq_some_iff, after?_eq_some_iff]
  constructor
  · rintro ⟨tail, rfl, ends⟩
    refine ⟨tail.takeWhile isBlockBlank, fun _ => holds_of_mem_takeWhile, ?_⟩
    have parts : tail.takeWhile isBlockBlank ++ tail.dropWhile isBlockBlank = tail :=
      List.takeWhile_append_dropWhile
    rw [ends, List.singleton_append] at parts
    rw [parts]
    rfl
  · rintro ⟨blanks, every, rfl⟩
    refine ⟨blanks ++ '>' :: rest, by simp, ?_⟩
    exact dropWhile_append every (by simp [isBlockBlank])

/-- A closing tag with this name stands somewhere in the content. -/
def HasClosing (tag content : List Char) : Prop :=
  ∃ front blanks back, (∀ c ∈ blanks, isBlockBlank c = true) ∧
    content = front ++ '<' :: '/' :: (tag ++ (blanks ++ '>' :: back))

theorem not_hasClosing_iff {tag content : List Char} :
    ¬ HasClosing tag content ↔ cutAt? (closing? tag) content = none := by
  rw [cutAt?_eq_none_iff]
  constructor
  · intro absent front back equal
    cases closes : closing? tag back with
    | none => rfl
    | some rest =>
        rcases closing?_eq_some_iff.1 closes with ⟨blanks, every, rfl⟩
        exact absurd ⟨front, blanks, rest, every, equal⟩ absent
  · rintro missed ⟨front, blanks, back, every, equal⟩
    have closes : closing? tag ('<' :: '/' :: (tag ++ (blanks ++ '>' :: back))) = some back :=
      closing?_eq_some_iff.2 ⟨blanks, every, rfl⟩
    rw [missed front _ equal] at closes
    cases closes

instance (tag content : List Char) : Decidable (HasClosing tag content) :=
  decidable_of_iff (¬ cutAt? (closing? tag) content = none) (by
    rw [← not_hasClosing_iff, Classical.not_not])

/-- Content without a closing tag of its own ends at the closing tag after it. -/
theorem cutAt?_closing? {tag content blanks : List Char} (unmarked : '<' ∉ tag)
    (blank : ∀ c ∈ blanks, isBlockBlank c = true) (unclosed : ¬ HasClosing tag content)
    (rest : List Char) :
    cutAt? (closing? tag) (content ++ '<' :: '/' :: (tag ++ (blanks ++ '>' :: rest))) =
      some (content, rest) := by
  refine cutAt?_append ?_ (closing?_eq_some_iff.2 ⟨blanks, blank, rfl⟩)
  intro front back equal proper
  cases early : closing? tag (back ++ '<' :: '/' :: (tag ++ (blanks ++ '>' :: rest))) with
  | none => rfl
  | some after =>
      -- a closing tag that begins earlier would have a second `<` in it
      rcases closing?_eq_some_iff.1 early with ⟨others, every, parts⟩
      have single : '<' ∉ ('<' :: '/' :: (tag ++ (others ++ ['>']))).tail := by
        have unblank : '<' ∉ others := fun member => absurd (every '<' member) (by decide)
        simp [unmarked, unblank]
      have begins : '<' :: '/' :: (tag ++ (others ++ ['>'])) <+:
          back ++ '<' :: '/' :: (tag ++ (blanks ++ '>' :: rest)) := by
        rw [parts]
        exact ⟨after, by simp⟩
      rcases prefix_of_prefix_append single proper begins with ⟨tail, inside⟩
      refine absurd ⟨front, others, tail, every, ?_⟩ unclosed
      simp [equal, ← inside]

/-- The content up to the first closing tag has no closing tag of its own. -/
theorem not_hasClosing_of_cutAt? {tag text content rest : List Char}
    (cut : cutAt? (closing? tag) text = some (content, rest)) : ¬ HasClosing tag content := by
  rcases stop?_eq_none_of_cutAt? cut with ⟨tail, -, -, passed⟩
  rintro ⟨front, blanks, back, every, equal⟩
  have closes : closing? tag ('<' :: '/' :: (tag ++ (blanks ++ '>' :: back)) ++ tail) =
      some (back ++ tail) := closing?_eq_some_iff.2 ⟨blanks, every, by simp⟩
  rw [passed front _ equal (by simp)] at closes
  cases closes

end Block

end SingleFile
