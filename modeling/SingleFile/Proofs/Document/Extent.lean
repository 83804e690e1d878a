import SingleFile.Proofs.Document.Arrangement

/-!
# The extent of a template

A template whose body is balanced ends at its own closing tag, whatever its body holds
and whatever follows. A text that begins with it is therefore read in two parts: the
template, and the component of the text behind it. Only a second template can come
between the two.

Main statement: `Document.read_of_balanced`.
-/

namespace SingleFile

open SingleFile.Block (Balanced Source openTemplate?)
open SingleFile.Text (isBlockBlank)

namespace Document

/-- The component with this template in place of its own. -/
def withTemplate (document : Document) (template : Markup.Template) : Document :=
  { document with template := some template }

/-! ## Taking in blocks -/

/-- A block is taken in, or it asks for a slot that is taken. -/
theorem add_cases (document : Document) (source : Source) :
    (document.add source).2 = .ok (document.extend source) ∨
      ∃ slot, (document.add source).2 = .error (.duplicate slot) := by
  cases takes : source.slot? with
  | none => exact .inl (add_of_free (by simp [takes]))
  | some slot =>
      cases taken : document.holds slot with
      | true => exact .inr ⟨slot, add_of_taken takes taken⟩
      | false => exact .inl (add_of_free (by simp [takes, taken]))

/-- All blocks are taken in, or one of them asks for a slot that is taken. -/
theorem addAll_cases (document : Document) (sources : List Source) :
    (document.addAll sources).2 = .ok (sources.foldl extend document) ∨
      ∃ slot, (document.addAll sources).2 = .error (.duplicate slot) := by
  induction sources generalizing document with
  | nil => exact .inl rfl
  | cons source sources ih =>
      rw [addAll_cons]
      rcases add_cases document source with accepted | ⟨slot, refused⟩
      · rw [accepted]
        exact ih (document.extend source)
      · rw [refused]
        exact .inr ⟨slot, rfl⟩

/-- No block replaces a template. -/
theorem template_foldl_extend {document : Document} {template : Markup.Template}
    (present : document.template = some template) (sources : List Source) :
    (sources.foldl extend document).template = some template := by
  induction sources generalizing document with
  | nil => exact present
  | cons source sources ih =>
      apply ih
      simp [extend, present]

/-- A template has no part in what is done with other blocks. -/
theorem add_withTemplate_raw (document : Document) (template : Markup.Template) (tag : String)
    (attrs : List Attr) (content : String) :
    ((document.withTemplate template).add (.raw tag attrs content)).2 =
      (document.add (.raw tag attrs content)).2.map (withTemplate · template) := by
  rcases document with ⟨main, script, setup, styles, blocks⟩
  simp only [add, addRaw, addScript, withTemplate]
  split
  next =>
    split
    next => cases setup <;> rfl
    next => cases script <;> rfl
  next => split <;> rfl

theorem template_of_add_raw {document grown : Document} {tag : String} {attrs : List Attr}
    {content : String} (added : (document.add (.raw tag attrs content)).2 = .ok grown) :
    grown.template = document.template := by
  rcases add_cases document (.raw tag attrs content) with accepted | ⟨slot, refused⟩
  · rw [accepted] at added
    cases added
    simp [extend]
  · rw [refused] at added
    cases added

/-- After a template those blocks are taken in that are taken in without it and hold no
template, and they give the same. -/
theorem addAll_withTemplate {document grown : Document} {template : Markup.Template}
    (free : document.template = none) (sources : List Source) :
    ((document.withTemplate template).addAll sources).2 = .ok grown ↔
      ∃ others, (document.addAll sources).2 = .ok others ∧ others.template = none ∧
        grown = others.withTemplate template := by
  induction sources generalizing document with
  | nil =>
      constructor
      · intro added
        cases added
        exact ⟨document, rfl, free, rfl⟩
      · rintro ⟨others, added, -, rfl⟩
        cases added
        rfl
  | cons source sources ih =>
      rw [addAll_cons, addAll_cons]
      cases source with
      | template attrs body =>
          constructor
          · intro added
            cases added
          · rintro ⟨others, added, vacant, -⟩
            -- The template is the first block, and what follows does not replace it.
            have taken : (document.add (.template attrs body)).2 =
                .ok (document.withTemplate ⟨attrs, Markup.Forest.read body⟩) := by
              simp [add, free, withTemplate]
            rw [taken] at added
            rcases addAll_cases (document.withTemplate ⟨attrs, Markup.Forest.read body⟩) sources
              with accepted | ⟨slot, refused⟩
            · rw [show others = _ from Except.ok.inj (added.symm.trans accepted),
                template_foldl_extend rfl] at vacant
              cases vacant
            · cases added.symm.trans refused
      | raw tag attrs content =>
          rw [add_withTemplate_raw]
          cases added : (document.add (.raw tag attrs content)).2 with
          | error error => simp [Except.map, Except.bind]
          | ok next => exact ih ((template_of_add_raw added).trans free)

/-- A text is unreadable when it does not divide into blocks, and in no other case. -/
theorem read_eq_unreadable_iff (source : String) :
    Document.read source = .error .unreadable ↔ Source.readAll? source.toList = none := by
  rw [Document.read, readWithEvents]
  split
  next divided => simp [divided]
  next sources divided =>
    rcases addAll_cases empty sources with accepted | ⟨slot, refused⟩
    · simp [divided, accepted]
    · simp [divided, refused]

/-- A template with a balanced body is read up to its closing tag, and what follows is read
as it would be without the template: the text is readable when that is, the template is
taken in first, and the component is that of the rest with this template. -/
theorem read_of_balanced {opening body place blanks : List Char} {attrs : List Attr}
    (opened : openTemplate? opening = some (attrs, []))
    (balanced : Balanced body ("</template".toList ++ place))
    (blank : ∀ c ∈ blanks, isBlockBlank c = true) (rest : List Char) :
    let text := String.ofList
      (opening ++ (body ++ ("</template".toList ++ (blanks ++ '>' :: rest))))
    let template : Markup.Template := ⟨attrs, Markup.Forest.read (String.ofList body)⟩
    (Document.read text = .error .unreadable ↔
      Document.read (String.ofList rest) = .error .unreadable) ∧
    (Document.read (String.ofList rest) ≠ .error .unreadable →
      ∃ sources, Source.readAll? rest = some sources ∧
        Source.readAll? text.toList = some (.template attrs (String.ofList body) :: sources) ∧
        let later := (empty.withTemplate template).addAll sources
        readWithEvents text =
          (.templateRead attrs.length (String.ofList body).utf8ByteSize :: later.1, later.2)) ∧
    ∀ document, Document.read text = .ok document ↔
      ∃ others, Document.read (String.ofList rest) = .ok others ∧ others.template = none ∧
        document = others.withTemplate template := by
  intro text template
  have spelled := Source.Spelled.template opened (balanced.of_head? rfl rfl) blank
  have divided : Source.readAll? text.toList =
      (Source.readAll? rest).map (.template attrs (String.ofList body) :: ·) := by
    have read := Source.readAll?_of_read? (Source.opensTag_of_spelled spelled rest)
      (Source.read?_of_spelled spelled rest)
    simpa [text] using read
  have unreadable : Document.read text = .error .unreadable ↔
      Document.read (String.ofList rest) = .error .unreadable := by
    simp [read_eq_unreadable_iff, divided]
  refine ⟨unreadable, ?_, ?_⟩
  · intro readable
    rw [ne_eq, read_eq_unreadable_iff, String.toList_ofList] at readable
    rcases Option.ne_none_iff_exists'.1 readable with ⟨sources, found⟩
    refine ⟨sources, found, by rw [divided, found]; rfl, ?_⟩
    rw [readWithEvents, divided, found]
    rfl
  · intro document
    cases found : Source.readAll? rest with
    | none =>
        have failed := (read_eq_unreadable_iff (String.ofList rest)).2 (by simpa using found)
        simp [unreadable.2 failed, failed]
    | some sources =>
        rw [Document.read, readWithEvents, divided, found, Document.read, readWithEvents,
          String.toList_ofList, found]
        exact addAll_withTemplate rfl sources

theorem read_of_balanced_sample :
    let attrs : List Attr := [⟨"lang", some ">"⟩]
    let body := "<!--</template>--><template a='>'/><template><template/>-</template>".toList
    let text (rest : String) := String.ofList ("<template lang='>'\n>".toList ++
      (body ++ ("</template".toList ++ ([' '] ++ '>' :: rest.toList))))
    Balanced body ("</template".toList ++ []) ∧
      Document.read (text "</template><script></template></script>") =
        .ok ⟨some ⟨attrs, Markup.Forest.read (String.ofList body)⟩,
          some (.ofAttrs [] "</template>"), none, [], []⟩ ∧
      Document.read (text "<script></template>") = .error .unreadable := by
  intro attrs body text
  have opened : openTemplate? "<template lang='>'\n>".toList = some (attrs, []) := by
    decide +kernel
  have tagText : Block.TagText " a='>'".toList :=
    .append (@Block.tagText_of_plain " a=".toList (by decide))
      (@Block.TagText.quoted '\'' ['>'] [] (.inr rfl) (by decide) .nil)
  have inner (following : List Char) : Balanced "<template/>-".toList ('<' :: following) :=
    @Balanced.selfClosing [] ['-'] _ .nil (by simp)
      (Block.Inert.balanced (by decide) (by simp [Block.endsMark, Block.isTagChar]))
  have balanced : Balanced body ("</template".toList ++ []) :=
    @Balanced.comment "</template>".toList _ _ (by decide +kernel)
      (@Balanced.selfClosing _ _ _ tagText (by simp [Block.isTagChar])
        (@Balanced.nested [] "<template/>-".toList [] [] _ .nil (by simp) (by simp) (by simp)
          (inner _) (.nil _)))
  have blank : ∀ c ∈ [' '], isBlockBlank c = true := by decide
  refine ⟨balanced, ?_, ?_⟩
  · have divided : Source.readAll? "</template><script></template></script>".toList =
        some [.raw "script" [] "</template>"] := by decide +kernel
    apply ((read_of_balanced opened balanced blank _).2.2 _).2
    refine ⟨⟨none, some (.ofAttrs [] "</template>"), none, [], []⟩, ?_, rfl, rfl⟩
    rw [String.ofList_toList, Document.read, readWithEvents, divided]
    rfl
  · apply (read_of_balanced opened balanced blank _).1.2
    rw [read_eq_unreadable_iff, String.toList_ofList]
    decide +kernel

end Document

end SingleFile
