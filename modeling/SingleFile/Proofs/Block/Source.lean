import SingleFile.Block
import SingleFile.Block.Source
import SingleFile.Proofs.Block.Balanced
import SingleFile.Proofs.Block.Opening

/-!
# Blocks, written and read

A block can be spelled in many ways: attributes stand with or without quotes, and
blanks are free. What counts is that it ends at its own closing tag: raw content must
not hold that tag, and the body of a template must be balanced in front of it. A block
is read from each of its spellings, whatever follows it. The printed text of a block is
one of them, so blocks that are printed one after the other are read back.

Main statements: `Source.read?_of_spelled`, `Source.readAll?_writtenAll`, and
`Source.sound_of_readAll?` for the blocks of an arbitrary text.
-/

namespace SingleFile.Block

open SingleFile.Text

/-- The tag of a raw block. -/
def IsRawTag (tag : String) : Prop :=
  tag.toList.head?.any Char.isAlpha = true ∧ (∀ c ∈ tag.toList, isTagChar c = true) ∧
    tag ≠ "template"

instance (tag : String) : Decidable (IsRawTag tag) := inferInstanceAs (Decidable (_ ∧ _))

/-- Attributes and content that can stand in a raw block with this tag. -/
def IsLegal (tag : String) (attrs : List Attr) (content : String) : Prop :=
  (∀ attr ∈ attrs, attr.Legal) ∧ ¬ HasClosing tag.toList content.toList

instance (tag : String) (attrs : List Attr) (content : String) :
    Decidable (IsLegal tag attrs content) := inferInstanceAs (Decidable (_ ∧ _))

theorem exists_of_isRawTag {tag : String} (isRaw : IsRawTag tag) :
    ∃ c rest, tag.toList = c :: rest ∧ c.isAlpha = true := by
  cases chars : tag.toList with
  | nil => simp [IsRawTag, chars] at isRaw
  | cons c rest => exact ⟨c, rest, rfl, by simpa [chars] using isRaw.1⟩

/-- The tag of a raw block does not begin with the name of a template's tag. -/
theorem opensName_of_isRawTag {tag : String} (isRaw : IsRawTag tag) :
    opensName "template".toList tag.toList = false := by
  rw [opensName]
  cases begins : after? "template".toList tag.toList with
  | none => rfl
  | some rest =>
      have parts := after?_eq_some_iff.1 begins
      cases rest with
      | nil =>
          rw [List.append_nil, String.toList_inj] at parts
          exact absurd parts isRaw.2.2
      | cons c rest =>
          have inside : isTagChar c = true := isRaw.2.1 c (by simp [parts])
          simp [endOfName?, inside]

theorem toList_wrap (tag : String) (attrs : List Attr) (content : String) (rest : List Char) :
    (wrap tag attrs content).toList ++ rest =
      '<' :: (tag.toList ++ ((Attr.renderAll attrs).toList ++
        '>' :: (content.toList ++ '<' :: '/' :: (tag.toList ++ '>' :: rest)))) := by
  simp [wrap]

/-- What follows the tag's name in an opening tag ends the name. -/
theorem head?_renderAll (attrs : List Attr) (rest : List Char) :
    ∀ c ∈ ((Attr.renderAll attrs).toList ++ '>' :: rest).head?, isTagChar c = false := by
  cases attrs with
  | nil => exact forall_head?_cons (by decide) rest
  | cons attr attrs =>
      rw [Attr.toList_renderAll_cons]
      exact forall_head?_cons (by decide) _

namespace Source

/-- The text of a block. -/
def written : Source → List Char
  | .template attrs body => (wrap "template" attrs body).toList
  | .raw tag attrs content => (wrap tag attrs content).toList

/-- The text of blocks one after the other. -/
def writtenAll (sources : List Source) : List Char := sources.flatMap written

@[simp] theorem writtenAll_nil : writtenAll [] = [] := rfl

@[simp] theorem writtenAll_cons (source : Source) (sources : List Source) :
    writtenAll (source :: sources) = source.written ++ writtenAll sources := rfl

@[simp] theorem writtenAll_append (front back : List Source) :
    writtenAll (front ++ back) = writtenAll front ++ writtenAll back := by
  simp [writtenAll]

/-- The attributes of a block. -/
def attrs : Source → List Attr
  | .template attrs _ => attrs
  | .raw _ attrs _ => attrs

/-- What holds of every block that is read. -/
def Sound : Source → Prop
  | .template attrs _ => ∀ attr ∈ attrs, attr.Legal
  | .raw tag attrs content => IsRawTag tag ∧ IsLegal tag attrs content

/-- The body of a template ends at the closing tag that is written after it. -/
def Enclosed : Source → Prop
  | .template _ body => ∀ rest, Balanced body.toList ("</template>".toList ++ rest)
  | .raw .. => True

theorem upTo_append (front rest : List Char) : upTo (front ++ rest) rest = front := by
  simp [upTo]

theorem isRawTag_of_rawTag? {text tag rest : List Char} (read : rawTag? text = some (tag, rest)) :
    IsRawTag (String.ofList tag) := by
  unfold rawTag? at read
  split at read
  next c tail =>
    simp only at read
    split at read
    next accepted =>
      cases read
      rw [Bool.and_eq_true, bne_iff_ne] at accepted
      rcases accepted with ⟨letter, other⟩
      refine ⟨?_, ?_, ?_⟩
      · have inside : isTagChar c = true := by simp [isTagChar, Char.isAlphanum, letter]
        simp [inside, letter]
      · intro d member
        rw [String.toList_ofList] at member
        exact holds_of_mem_takeWhile member
      · intro equal
        have chars := congrArg String.toList equal
        rw [String.toList_ofList] at chars
        exact other chars
    next => simp at read
  next => simp at read

/-! ## Spellings -/

/-- The ways to write a block: an opening tag that is read in full, the content, and a
closing tag that may hold blanks. -/
inductive Spelled : Source → List Char → Prop where
  | raw {opening tag content blanks : List Char} {attrs : List Attr} :
      openRaw? opening = some (tag, attrs, []) → ¬ HasClosing tag content →
      (∀ c ∈ blanks, isBlockBlank c = true) →
      Spelled (.raw (String.ofList tag) attrs (String.ofList content))
        (opening ++ (content ++ '<' :: '/' :: (tag ++ (blanks ++ ['>']))))
  | template {opening body blanks : List Char} {attrs : List Attr} :
      openTemplate? opening = some (attrs, []) →
      Balanced body ("</template".toList ++ (blanks ++ ['>'])) →
      (∀ c ∈ blanks, isBlockBlank c = true) →
      Spelled (.template attrs (String.ofList body))
        (opening ++ (body ++ ("</template".toList ++ (blanks ++ ['>']))))

/-- What opens with the tag of a raw block does not open a template. -/
theorem templateStart?_of_rawTag? {text tag rest : List Char}
    (read : rawTag? text = some (tag, rest)) : templateStart? text = none := by
  have isRaw := isRawTag_of_rawTag? read
  have named : opensName "template".toList tag = false := by
    rw [← String.toList_ofList (l := tag)]
    exact opensName_of_isRawTag isRaw
  have proper : tag ≠ [] := by
    rcases exists_of_isRawTag isRaw with ⟨c, tail, shape, -⟩
    rw [String.toList_ofList] at shape
    simp [shape]
  unfold rawTag? at read
  split at read
  next first others =>
    simp only at read
    split at read
    next =>
      cases read
      have stops : ∀ d ∈ ((first :: others).dropWhile isTagChar).head?,
          d ∉ "template".toList.tail := by
        intro d head member
        have letters : ∀ d ∈ "template".toList.tail, isTagChar d = true := by decide
        have stopped := List.head?_dropWhile_not isTagChar (first :: others)
        rw [show List.head? _ = some d from head] at stopped
        simp [letters d member] at stopped
      have unopened := opensName_append proper named stops
      rw [List.takeWhile_append_dropWhile] at unopened
      rw [← Option.isNone_iff_eq_none, ← Option.isSome_eq_false_iff]
      exact unopened
    next => simp at read
  next => simp at read

theorem raw?_of_spelled {opening tag content blanks : List Char} {attrs : List Attr}
    (opened : openRaw? opening = some (tag, attrs, [])) (unclosed : ¬ HasClosing tag content)
    (blank : ∀ c ∈ blanks, isBlockBlank c = true) (rest : List Char) :
    read? (opening ++ (content ++ '<' :: '/' :: (tag ++ (blanks ++ '>' :: rest)))) =
      some (.raw (String.ofList tag) attrs (String.ofList content), rest) := by
  rcases openRaw?_eq_some_iff.1 (openRaw?_append opened
    (content ++ '<' :: '/' :: (tag ++ (blanks ++ '>' :: rest)))) with ⟨tail, begins, ends⟩
  have unmarked : '<' ∉ tag := by
    intro member
    have inside := (isRawTag_of_rawTag? begins).2.1 '<' (by simpa using member)
    cases inside
  have notTemplate : template? (opening ++ (content ++
      '<' :: '/' :: (tag ++ (blanks ++ '>' :: rest)))) = none := by
    rw [template?, openTemplate?, templateStart?_of_rawTag? begins]
    rfl
  rw [List.nil_append] at ends
  rw [read?, notTemplate, raw?, begins]
  simp only [Option.bind_eq_bind, Option.bind_some, ends, cutAt?_closing? unmarked blank unclosed]
  rfl

theorem template?_of_spelled {opening body blanks : List Char} {attrs : List Attr}
    (opened : openTemplate? opening = some (attrs, []))
    (balanced : Balanced body ("</template".toList ++ (blanks ++ ['>'])))
    (blank : ∀ c ∈ blanks, isBlockBlank c = true) (rest : List Char) :
    read? (opening ++ (body ++ ("</template".toList ++ (blanks ++ '>' :: rest)))) =
      some (.template attrs (String.ofList body), rest) := by
  have closes := closing?_append blank rest
  have begins := openTemplate?_append opened
    (body ++ ("</template".toList ++ (blanks ++ '>' :: rest)))
  have ends : bodyEnd (body ++ ("</template".toList ++ (blanks ++ '>' :: rest))) =
      "</template".toList ++ (blanks ++ '>' :: rest) := by
    rw [(balanced.of_head? rfl rfl).bodyEnd_append, bodyEnd_of_closing? closes]
  rw [List.nil_append] at begins
  rw [read?, template?, begins]
  simp only [Option.bind_eq_bind, Option.bind_some, ends, closes, upTo_append]
  rfl

/-- A block is read from each of its spellings, whatever follows it. -/
theorem read?_of_spelled {source : Source} {text : List Char} (spelled : source.Spelled text)
    (rest : List Char) : read? (text ++ rest) = some (source, rest) := by
  cases spelled with
  | raw opened unclosed blank =>
      simpa using raw?_of_spelled opened unclosed blank rest
  | template opened balanced blank =>
      simpa using template?_of_spelled opened balanced blank rest

/-! ## Printed blocks -/

theorem openTemplate?_renderAll {attrs : List Attr} (legal : ∀ attr ∈ attrs, attr.Legal)
    (quoteFree : ∀ attr ∈ attrs, attr.QuoteFree) :
    openTemplate? ("<template".toList ++ ((Attr.renderAll attrs).toList ++ ['>'])) =
      some (attrs, []) := by
  rw [openTemplate?, templateStart?, after?_append, Option.bind_some,
    endOfName?_eq_some (head?_renderAll attrs []), Option.bind_some,
    readOpenTail?_renderAll legal quoteFree]

theorem openRaw?_renderAll {tag : String} (isRaw : IsRawTag tag) {attrs : List Attr}
    (legal : ∀ attr ∈ attrs, attr.Legal) (quoteFree : ∀ attr ∈ attrs, attr.QuoteFree) :
    openRaw? ('<' :: (tag.toList ++ ((Attr.renderAll attrs).toList ++ ['>']))) =
      some (tag.toList, attrs, []) := by
  have named := head?_renderAll attrs []
  have taken := takeWhile_append isRaw.2.1 named
  have dropped := dropWhile_append isRaw.2.1 named
  have other : tag.toList ≠ templateTag := fun equal => isRaw.2.2 (String.toList_inj.1 equal)
  rcases exists_of_isRawTag isRaw with ⟨c, tail, shape, letter⟩
  refine openRaw?_eq_some_iff.2 ⟨_, ?_, readOpenTail?_renderAll legal quoteFree []⟩
  rw [shape, List.cons_append] at taken dropped ⊢
  rw [rawTag?, taken, dropped, letter, ← shape]
  simp [other]

/-- The printed text of a block is one of its spellings. -/
theorem spelled_written : (source : Source) → source.Sound →
    (∀ attr ∈ source.attrs, attr.QuoteFree) → source.Enclosed → source.Spelled source.written
  | .template attrs body, legal, quoteFree, enclosed => by
      have spelled := Spelled.template (openTemplate?_renderAll legal quoteFree)
        (by simpa using enclosed []) (List.forall_mem_nil _)
      simpa [written, wrap] using spelled
  | .raw tag attrs content, ⟨isRaw, legal, unclosed⟩, quoteFree, _ => by
      have spelled := Spelled.raw (openRaw?_renderAll isRaw legal quoteFree) unclosed
        (List.forall_mem_nil _)
      simpa [written, wrap] using spelled

/-- A block is read back from its text. -/
theorem read?_written (source : Source) (sound : source.Sound)
    (quoteFree : ∀ attr ∈ source.attrs, attr.QuoteFree) (enclosed : source.Enclosed)
    (rest : List Char) : read? (source.written ++ rest) = some (source, rest) :=
  read?_of_spelled (spelled_written source sound quoteFree enclosed) rest

theorem opensTag_written : (source : Source) → source.Sound → (rest : List Char) →
    opensTag (source.written ++ rest) = true
  | .template attrs body, _, rest => by
      rw [written, toList_wrap]
      rfl
  | .raw tag attrs content, sound, rest => by
      rcases exists_of_isRawTag sound.1 with ⟨c, tail, shape, letter⟩
      rw [written, toList_wrap, shape]
      exact letter

theorem readAll?_of_read? {text rest : List Char} {source : Source} (opens : opensTag text = true)
    (read : read? text = some (source, rest)) :
    readAll? text = (readAll? rest).map (source :: ·) := by
  cases text with
  | nil => cases opens
  | cons c text =>
      rw [readAll?, if_pos opens]
      split <;> simp_all

/-- Blocks are read back from their text, in their order. -/
theorem readAll?_writtenAll {sources : List Source} (sound : ∀ source ∈ sources, source.Sound)
    (quoteFree : ∀ source ∈ sources, ∀ attr ∈ source.attrs, attr.QuoteFree)
    (enclosed : ∀ source ∈ sources, source.Enclosed) :
    readAll? (writtenAll sources) = some sources := by
  induction sources with
  | nil => rw [writtenAll_nil, readAll?]
  | cons source sources ih =>
      rcases List.forall_mem_cons.1 sound with ⟨sourceSound, sound⟩
      rcases List.forall_mem_cons.1 quoteFree with ⟨sourceFree, quoteFree⟩
      rcases List.forall_mem_cons.1 enclosed with ⟨sourceEnclosed, enclosed⟩
      have read := read?_written source sourceSound sourceFree sourceEnclosed (writtenAll sources)
      have opens := opensTag_written source sourceSound (writtenAll sources)
      rw [writtenAll_cons, readAll?_of_read? opens read, ih sound quoteFree enclosed]
      rfl

/-! ## Blocks of an arbitrary text -/

/-- A block that is read is sound. -/
theorem sound_of_read? {text rest : List Char} {source : Source}
    (read : read? text = some (source, rest)) : source.Sound := by
  simp only [read?, Option.orElse_eq_orElse, Option.orElse_eq_or, Option.or_eq_some_iff] at read
  rcases read with read | ⟨-, read⟩
  · simp only [template?, openTemplate?, Option.bind_eq_bind, Option.bind_eq_some_iff] at read
    rcases read with ⟨⟨attrs, body⟩, ⟨tail, -, ends⟩, after, -, equal⟩
    cases equal
    exact legal_of_readOpenTail? ends
  · simp only [raw?, Option.bind_eq_bind, Option.bind_eq_some_iff] at read
    rcases read with ⟨⟨tag, tail⟩, begins, ⟨attrs, body⟩, ends, ⟨content, after⟩, cut, equal⟩
    cases equal
    refine ⟨isRawTag_of_rawTag? begins, legal_of_readOpenTail? ends, ?_⟩
    simpa using not_hasClosing_of_cutAt? cut

/-- Every block of a text is sound. -/
theorem sound_of_readAll? {text : List Char} {sources : List Source}
    (read : readAll? text = some sources) : ∀ source ∈ sources, source.Sound := by
  fun_induction readAll? text generalizing sources with
  | case1 =>
      cases read
      simp
  | case2 c rest opens block tail found ih =>
      rcases Option.map_eq_some_iff.1 read with ⟨others, later, rfl⟩
      exact List.forall_mem_cons.2 ⟨sound_of_read? found, ih later⟩
  | case3 => simp at read
  | case4 c rest opens marked tail comment ih => exact ih read
  | case5 => simp at read
  | case6 c rest opens unmarked ih => exact ih read

end Source

end SingleFile.Block
