import SingleFile.Block.Source
import SingleFile.Proofs.Block.Tag

/-!
# Opening tags in front of other text

An opening tag ends at its own `>`: once it is read, it is read alike whatever
follows it. A name, a blank or a bare value could go on in the following text, and a
quote could be closed there, but none of them is the last thing in a tag.

Main statements: `openTemplate?_append` for a template, and `openRaw?_append` for a
block of raw content.
-/

namespace SingleFile.Block

open SingleFile.Text

/-! ## One attribute -/

theorem readValue?_append {text value rest : List Char}
    (read : readValue? text = some (value, rest)) (proper : rest ≠ []) (more : List Char) :
    readValue? (text ++ more) = some (value, rest ++ more) := by
  cases text with
  | nil => cases read
  | cons c text =>
      rw [readValue?] at read
      rw [List.cons_append, readValue?]
      split at read
      next quote =>
        have parts := eq_append_of_cut? read
        rw [if_pos quote, parts, List.append_assoc, List.append_assoc]
        exact cut?_singleton_append (not_mem_of_cut? read) (rest ++ more)
      next unquoted =>
        rw [if_neg unquoted]
        split at read
        next bare =>
          cases read
          rw [if_pos bare, ← List.cons_append, takeWhile_append_left proper,
            dropWhile_append_left proper]
        next => cases read

theorem readBinding?_append {text value rest : List Char}
    (read : readBinding? text = some (value, rest)) (proper : rest ≠ []) (more : List Char) :
    readBinding? (text ++ more) = some (value, rest ++ more) := by
  simp only [readBinding?, Option.bind_eq_bind, Option.bind_eq_some_iff] at read
  rcases read with ⟨tail, sign, read⟩
  have shape := after?_eq_some_iff.1 sign
  have signed : text.dropWhile isBlockBlank ≠ [] := by simp [shape]
  have unblank : tail.dropWhile isBlockBlank ≠ [] := by
    intro blank
    rw [blank] at read
    cases read
  rw [readBinding?, dropWhile_append_left signed, shape, List.append_assoc, after?_append]
  simp only [Option.bind_eq_bind, Option.bind_some]
  rw [dropWhile_append_left unblank, readValue?_append read proper]

theorem readAttr?_eq_none {c : Char} (other : isNameChar c = false) (text : List Char) :
    readAttr? (c :: text) = none := by
  simp [readAttr?, other]

theorem readOpenTail?_of_readSpacedAttr? {text rest : List Char} {attr : Attr}
    (read : readSpacedAttr? text = some (attr, rest)) :
    readOpenTail? text = (readOpenTail? rest).map fun found => (attr :: found.1, found.2) := by
  simp [readOpenTail?, readAttrs_of_readSpacedAttr? read, Function.comp_def]

theorem readOpenTail?_of_none {text : List Char} (unread : readSpacedAttr? text = none) :
    readOpenTail? text =
      (after? ['>'] (text.dropWhile isBlockBlank)).map fun rest => ([], rest) := by
  have stopped : readAttrs text = ([], text) := by
    rw [readAttrs]
    split <;> simp_all
  simp [readOpenTail?, stopped]

/-- What is left of an opening tag does not begin with a value. -/
theorem exists_of_readOpenTail? {text rest : List Char} {attrs : List Attr}
    (read : readOpenTail? text = some (attrs, rest)) :
    ∃ c tail, text.dropWhile isBlockBlank = c :: tail ∧ c ≠ '=' := by
  cases spaced : readSpacedAttr? text with
  | none =>
      rw [readOpenTail?_of_none spaced] at read
      rcases Option.map_eq_some_iff.1 read with ⟨tail, ends, -⟩
      exact ⟨'>', tail, after?_eq_some_iff.1 ends, by decide⟩
  | some found =>
      cases text with
      | nil => cases spaced
      | cons c text =>
          rw [readSpacedAttr?] at spaced
          split at spaced
          next blank =>
            rw [List.dropWhile_cons_of_pos blank]
            cases shape : text.dropWhile isBlockBlank with
            | nil =>
                rw [shape] at spaced
                cases spaced
            | cons d tail =>
                refine ⟨d, tail, rfl, ?_⟩
                intro sign
                rw [shape, readAttr?_eq_none (isNameChar_eq_false (.inr (.inl sign)))] at spaced
                cases spaced
          next => cases spaced

theorem ne_nil_of_readOpenTail? {text rest : List Char} {attrs : List Attr}
    (read : readOpenTail? text = some (attrs, rest)) : text ≠ [] := by
  intro empty
  rw [empty] at read
  rcases exists_of_readOpenTail? read with ⟨c, tail, shape, -⟩
  cases shape

/-- An attribute inside an opening tag is read alike in front of more text. -/
theorem readAttr?_append {text rest after : List Char} {attr : Attr} {attrs : List Attr}
    (read : readAttr? text = some (attr, rest)) (goesOn : readOpenTail? rest = some (attrs, after))
    (more : List Char) : readAttr? (text ++ more) = some (attr, rest ++ more) := by
  have proper := ne_nil_of_readOpenTail? goesOn
  simp only [readAttr?] at read ⊢
  split at read
  next => cases read
  next named =>
    cases binding : readBinding? (text.dropWhile isNameChar) with
    | some found =>
        have stops : text.dropWhile isNameChar ≠ [] := by
          intro ended
          rw [ended] at binding
          cases binding
        rw [binding] at read
        cases read
        rw [takeWhile_append_left stops, dropWhile_append_left stops, if_neg named,
          readBinding?_append binding proper]
    | none =>
        rw [binding] at read
        cases read
        -- a quote that is not closed in the tag would leave the tag without an end
        rcases exists_of_readOpenTail? goesOn with ⟨c, tail, shape, unsigned⟩
        have unbound : readBinding? (text.dropWhile isNameChar ++ more) = none := by
          rw [readBinding?, dropWhile_append_left (by simp [shape]), shape]
          simp [after?, Ne.symm unsigned]
        rw [takeWhile_append_left proper, dropWhile_append_left proper, if_neg named, unbound]

theorem readSpacedAttr?_append {text rest after : List Char} {attr : Attr} {attrs : List Attr}
    (read : readSpacedAttr? text = some (attr, rest))
    (goesOn : readOpenTail? rest = some (attrs, after)) (more : List Char) :
    readSpacedAttr? (text ++ more) = some (attr, rest ++ more) := by
  cases text with
  | nil => cases read
  | cons c text =>
      rw [readSpacedAttr?] at read
      rw [List.cons_append, readSpacedAttr?]
      split at read
      next blank =>
        have proper : text.dropWhile isBlockBlank ≠ [] := by
          intro ended
          rw [ended] at read
          cases read
        rw [if_pos blank, dropWhile_append_left proper, readAttr?_append read goesOn]
      next => cases read

/-- No attribute stands at the end of an opening tag. -/
theorem readSpacedAttr?_eq_none {text rest : List Char}
    (ends : text.dropWhile isBlockBlank = '>' :: rest) : readSpacedAttr? text = none := by
  cases text with
  | nil => rfl
  | cons c text =>
      rw [readSpacedAttr?]
      split
      next blank =>
        rw [List.dropWhile_cons_of_pos blank] at ends
        rw [ends, readAttr?_eq_none rfl]
      next => rfl

/-! ## Whole tags -/

/-- The attributes and the end of an opening tag are read alike whatever follows it. -/
theorem readOpenTail?_append {text rest : List Char} {attrs : List Attr}
    (read : readOpenTail? text = some (attrs, rest)) (more : List Char) :
    readOpenTail? (text ++ more) = some (attrs, rest ++ more) := by
  induction text using readAttrs.induct generalizing attrs rest with
  | case1 text attr tail spaced ih =>
      rw [readOpenTail?_of_readSpacedAttr? spaced] at read
      rcases Option.map_eq_some_iff.1 read with ⟨⟨others, after⟩, goesOn, equal⟩
      cases equal
      rw [readOpenTail?_of_readSpacedAttr? (readSpacedAttr?_append spaced goesOn more), ih goesOn]
      rfl
  | case2 text unread =>
      rw [readOpenTail?_of_none unread] at read
      rcases Option.map_eq_some_iff.1 read with ⟨tail, ends, equal⟩
      cases equal
      have shape : text.dropWhile isBlockBlank = '>' :: rest := after?_eq_some_iff.1 ends
      have longer : (text ++ more).dropWhile isBlockBlank = '>' :: (rest ++ more) := by
        rw [dropWhile_append_left (by simp [shape]), shape]
        rfl
      rw [readOpenTail?_of_none (readSpacedAttr?_eq_none longer), longer]
      rfl

theorem templateStart?_append {text rest : List Char} (read : templateStart? text = some rest)
    (proper : rest ≠ []) (more : List Char) :
    templateStart? (text ++ more) = some (rest ++ more) := by
  rcases Option.bind_eq_some_iff.1 read with ⟨tail, begins, ends⟩
  rw [after?_eq_some_iff.1 begins, templateStart?, List.append_assoc, after?_append,
    Option.bind_some]
  cases tail with
  | nil =>
      cases ends
      exact absurd rfl proper
  | cons c tail =>
      rw [endOfName?] at ends
      rw [List.cons_append, endOfName?]
      split at ends
      next => cases ends
      next other =>
        cases ends
        rw [if_neg other]
        rfl

/-- The opening tag of a template is read alike whatever follows it. -/
theorem openTemplate?_append {text rest : List Char} {attrs : List Attr}
    (read : openTemplate? text = some (attrs, rest)) (more : List Char) :
    openTemplate? (text ++ more) = some (attrs, rest ++ more) := by
  rcases Option.bind_eq_some_iff.1 read with ⟨tail, begins, ends⟩
  rw [openTemplate?, templateStart?_append begins (ne_nil_of_readOpenTail? ends), Option.bind_some,
    readOpenTail?_append ends]

/-- The opening tag of a raw block: its name, its attributes and the text after it. -/
def openRaw? (text : List Char) : Option (List Char × List Attr × List Char) := do
  let (tag, tail) ← Source.rawTag? text
  let (attrs, rest) ← readOpenTail? tail
  return (tag, attrs, rest)

theorem openRaw?_eq_some_iff {text tag rest : List Char} {attrs : List Attr} :
    openRaw? text = some (tag, attrs, rest) ↔
      ∃ tail, Source.rawTag? text = some (tag, tail) ∧ readOpenTail? tail = some (attrs, rest) := by
  simp only [openRaw?, Option.bind_eq_bind, Option.bind_eq_some_iff, Prod.exists, Option.pure_def,
    Option.some.injEq, Prod.mk.injEq]
  constructor
  · rintro ⟨tag, tail, begins, attrs, rest, ends, rfl, rfl, rfl⟩
    exact ⟨tail, begins, ends⟩
  · rintro ⟨tail, begins, ends⟩
    exact ⟨tag, tail, begins, attrs, rest, ends, rfl, rfl, rfl⟩

theorem rawTag?_append {text tag rest : List Char}
    (read : Source.rawTag? text = some (tag, rest)) (proper : rest ≠ []) (more : List Char) :
    Source.rawTag? (text ++ more) = some (tag, rest ++ more) := by
  unfold Source.rawTag? at read
  split at read
  next c tail =>
    simp only at read
    split at read
    next accepted =>
      cases read
      have taken := takeWhile_append_left proper more
      have dropped := dropWhile_append_left proper more
      rw [List.cons_append] at taken dropped
      simp only [List.cons_append, Source.rawTag?, taken, dropped, accepted, if_true]
    next => cases read
  next => cases read

/-- The opening tag of a raw block is read alike whatever follows it. -/
theorem openRaw?_append {text tag rest : List Char} {attrs : List Attr}
    (read : openRaw? text = some (tag, attrs, rest)) (more : List Char) :
    openRaw? (text ++ more) = some (tag, attrs, rest ++ more) := by
  rcases openRaw?_eq_some_iff.1 read with ⟨tail, begins, ends⟩
  exact openRaw?_eq_some_iff.2 ⟨tail ++ more,
    rawTag?_append begins (ne_nil_of_readOpenTail? ends) more, readOpenTail?_append ends more⟩

end SingleFile.Block
