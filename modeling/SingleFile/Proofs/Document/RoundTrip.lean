import SingleFile.Proofs.Document.Ending
import SingleFile.Proofs.Document.Reading
import SingleFile.Proofs.Document.Shelter
import SingleFile.Proofs.Markup.Canonical

/-!
# Printing a component and reading it back

A component with legal blocks, legible markup and no double quote in a value is read back
from its text, up to the order of attributes, exactly when its template is delimited: the
search for the end of the template's content has to stop at the closing tag of the template,
or may leave nothing behind but closing tags. `Token.Sheltered` is a condition on the tokens
of the markup that ensures this. Canonical markup is legible, but need not be sheltered.

A component that is read has legal blocks. So formatting a text twice gives what formatting
it once does, when the markup in it is legible and the template delimited. Without a template
nothing is left to ask but that values hold no double quote.

Main statements: `Document.read_render`, `Document.format_format` and
`Document.format_sections`.
-/

namespace SingleFile

open SingleFile.Block (IsLegal Source bodyEnd closing? templateTag)

namespace Document

/-- No double quote in the attributes of a block. -/
structure QuoteFree (document : Document) : Prop where
  template : ∀ template ∈ document.template, ∀ attr ∈ template.attrs, attr.QuoteFree
  script : ∀ script ∈ document.script, ∀ attr ∈ script.attrs, attr.QuoteFree
  scriptSetup : ∀ script ∈ document.scriptSetup, ∀ attr ∈ script.attrs, attr.QuoteFree
  styles : ∀ style ∈ document.styles, ∀ attr ∈ style.attrs, attr.QuoteFree
  customBlocks : ∀ block ∈ document.customBlocks, ∀ attr ∈ block.attrs, attr.QuoteFree

/-- No double quote in the language of a script or style. -/
structure LangsQuoteFree (document : Document) : Prop where
  script : ∀ script ∈ document.script, ∀ lang ∈ script.lang, '"' ∉ lang.toList
  scriptSetup : ∀ script ∈ document.scriptSetup, ∀ lang ∈ script.lang, '"' ∉ lang.toList
  styles : ∀ style ∈ document.styles, ∀ lang ∈ style.lang, '"' ∉ lang.toList

/-! Whether a component has these properties can be computed, also for one that is
read. -/

instance (document : Document) : Decidable document.Legal :=
  decidable_of_iff (_ ∧ _ ∧ _ ∧ _ ∧ _)
    ⟨fun ⟨template, script, scriptSetup, styles, customBlocks⟩ =>
      ⟨template, script, scriptSetup, styles, customBlocks⟩,
      fun ⟨template, script, scriptSetup, styles, customBlocks⟩ =>
        ⟨template, script, scriptSetup, styles, customBlocks⟩⟩

instance (document : Document) : Decidable document.QuoteFree :=
  decidable_of_iff (_ ∧ _ ∧ _ ∧ _ ∧ _)
    ⟨fun ⟨template, script, scriptSetup, styles, customBlocks⟩ =>
      ⟨template, script, scriptSetup, styles, customBlocks⟩,
      fun ⟨template, script, scriptSetup, styles, customBlocks⟩ =>
        ⟨template, script, scriptSetup, styles, customBlocks⟩⟩

instance (document : Document) : Decidable document.LangsQuoteFree :=
  decidable_of_iff (_ ∧ _ ∧ _)
    ⟨fun ⟨script, scriptSetup, styles⟩ => ⟨script, scriptSetup, styles⟩,
      fun ⟨script, scriptSetup, styles⟩ => ⟨script, scriptSetup, styles⟩⟩

instance {ε α : Type} {holds : α → Prop} [DecidablePred holds] :
    (result : Except ε α) → Decidable (∃ value, result = .ok value ∧ holds value)
  | .ok value => decidable_of_iff (holds value) (by simp)
  | .error _ => isFalse (by simp)

instance {ε α : Type} [DecidableEq α] (value : α) :
    (result : Except ε α) → Decidable (result = .ok value)
  | .ok other => decidable_of_iff (other = value) (by simp)
  | .error _ => isFalse (by simp)

instance {ε α : Type} [DecidableEq ε] (error : ε) :
    (result : Except ε α) → Decidable (result = .error error)
  | .ok _ => isFalse (by simp)
  | .error other => decidable_of_iff (other = error) (by simp)

/-! ## The blocks of a legal component -/

theorem forall_mem_sources {document : Document} {holds : Source → Prop}
    (template : ∀ template ∈ document.template, holds template.source)
    (script : ∀ script ∈ document.script, holds script.source)
    (scriptSetup : ∀ script ∈ document.scriptSetup, holds script.source)
    (styles : ∀ style ∈ document.styles, holds style.source)
    (customBlocks : ∀ block ∈ document.customBlocks, holds block.source) :
    ∀ source ∈ document.sources, holds source := by
  intro source member
  simp only [sources, List.mem_append, Option.mem_toList, Option.map_eq_some_iff,
    List.mem_map] at member
  rcases member with ⟨found, present, rfl⟩ | ⟨found, present, rfl⟩ | ⟨found, present, rfl⟩ |
    ⟨found, present, rfl⟩ | ⟨found, present, rfl⟩
  · exact template found present
  · exact script found present
  · exact scriptSetup found present
  · exact styles found present
  · exact customBlocks found present

/-- A legal block stays legal with its attributes in written order. -/
theorem isLegal_arrange {tag flag content : String} {lang : Option String} {flagged : Bool}
    {attrs : List Attr} (flagLegal : (⟨flag, none⟩ : Attr).Legal)
    (legal : IsLegal tag attrs content) :
    IsLegal tag (Attr.arrange lang flag flagged attrs) content :=
  ⟨Attr.legal_arrange flagLegal legal.1, legal.2⟩

theorem Legal.sound_sources {document : Document} (legal : document.Legal) :
    ∀ source ∈ document.sources, source.Sound := by
  apply forall_mem_sources
  · exact legal.template
  · intro script present
    exact ⟨by decide, isLegal_arrange (by decide) (legal.script script present).2⟩
  · intro script present
    exact ⟨by decide, isLegal_arrange (by decide) (legal.scriptSetup script present).2⟩
  · intro style present
    exact ⟨by decide, isLegal_arrange (by decide) (legal.styles style present)⟩
  · intro block present
    rcases legal.customBlocks block present with ⟨isRaw, -, -, isLegal⟩
    exact ⟨isRaw, isLegal⟩

theorem QuoteFree.quoteFree_sources {document : Document} (quoteFree : document.QuoteFree)
    (langs : document.LangsQuoteFree) :
    ∀ source ∈ document.sources, ∀ attr ∈ source.attrs, attr.QuoteFree := by
  apply forall_mem_sources
  · exact quoteFree.template
  · intro script present
    exact Attr.quoteFree_arrange (langs.script script present) (quoteFree.script script present)
  · intro script present
    exact Attr.quoteFree_arrange (langs.scriptSetup script present)
      (quoteFree.scriptSetup script present)
  · intro style present
    exact Attr.quoteFree_arrange (langs.styles style present) (quoteFree.styles style present)
  · exact quoteFree.customBlocks

/-- The text of a printable template with sheltered markup ends at its own closing tag. -/
theorem enclosed_source {template : Markup.Template}
    (printable : Markup.Forest.Printable template.children)
    (sheltered : ∀ token ∈ Markup.Forest.tokens template.children, token.Sheltered) :
    template.source.Enclosed := by
  have passable : ∀ token ∈ Markup.Forest.tokens template.children, token.Passable := by
    intro token member
    exact ⟨printable.wellFormed token member, printable.quoteFree token member,
      sheltered token member, Markup.Token.exists_placed_of_mem printable.legible token member⟩
  have formed := Markup.Forest.Formed.of_tokens _ printable.formed passable
  intro rest
  rw [String.toList_ofList]
  apply Markup.Forest.balanced_writtenAll _ formed
  rintro c ⟨⟩
  rfl

/-- A component is read back from the text of its blocks, with its attributes in written
order. -/
theorem read_writtenAll {document : Document} (legal : document.Legal)
    (quoteFree : document.QuoteFree) (langs : document.LangsQuoteFree)
    (printable : ∀ template ∈ document.template, Markup.Forest.Printable template.children)
    (sheltered : ∀ template ∈ document.template,
      ∀ token ∈ Markup.Forest.tokens template.children, token.Sheltered) :
    Document.read (String.ofList (Source.writtenAll document.sources)) =
      .ok document.arranged := by
  have enclosed : ∀ source ∈ document.sources, source.Enclosed := by
    apply forall_mem_sources
    · intro template present
      exact enclosed_source (printable template present) (sheltered template present)
    all_goals exact fun _ _ => trivial
  have divided := Source.readAll?_writtenAll legal.sound_sources
    (quoteFree.quoteFree_sources langs) enclosed
  rw [Document.read, readWithEvents, String.toList_ofList, divided]
  apply addAll_sources
  · exact fun template present => (printable template present).read_writtenAll
  · exact fun script present => (legal.script script present).1
  · exact fun script present => (legal.scriptSetup script present).1
  · intro block present
    rcases legal.customBlocks block present with ⟨-, notScript, notStyle, -⟩
    exact ⟨notScript, notStyle⟩

/-! ## Where the template ends -/

/-- The component without its template. -/
def withoutTemplate (document : Document) : Document := { document with template := none }

/-- The text that is written after the template. -/
def laterText (document : Document) : List Char :=
  Source.writtenAll document.withoutTemplate.sources

/-- The text from the content of the template on. -/
def contentText (document : Document) (template : Markup.Template) : List Char :=
  Markup.Token.writtenAll (Markup.Forest.tokens template.children) ++
    ("</template>".toList ++ document.laterText)

/-- The search for the end of the template's content leaves only closing tags before the
blocks that follow. -/
def Delimited (document : Document) : Prop :=
  ∀ template ∈ document.template, ∃ ending, LeavesClosings template.children ending ∧
    bodyEnd (document.contentText template) = ending ++ document.laterText

section

variable {document : Document} {template : Markup.Template}

theorem arranged_eq_withTemplate (present : document.template = some template) :
    document.arranged = document.withoutTemplate.arranged.withTemplate template := by
  rcases document with ⟨main, script, setup, styles, blocks⟩
  cases present
  rfl

/-- What follows the template is read back. -/
theorem read_laterText (legal : document.Legal) (quoteFree : document.QuoteFree)
    (langs : document.LangsQuoteFree) :
    Document.read (String.ofList document.laterText) = .ok document.withoutTemplate.arranged := by
  have legal : document.withoutTemplate.Legal :=
    ⟨nofun, legal.script, legal.scriptSetup, legal.styles, legal.customBlocks⟩
  have quoteFree : document.withoutTemplate.QuoteFree :=
    ⟨nofun, quoteFree.script, quoteFree.scriptSetup, quoteFree.styles, quoteFree.customBlocks⟩
  have langs : document.withoutTemplate.LangsQuoteFree :=
    ⟨langs.script, langs.scriptSetup, langs.styles⟩
  exact read_writtenAll legal quoteFree langs nofun nofun

theorem opensTag_laterText (legal : document.Legal) :
    document.laterText = [] ∨ Source.opensTag document.laterText = true := by
  have sound : ∀ source ∈ document.withoutTemplate.sources, source.Sound := by
    intro source member
    exact legal.sound_sources source (List.mem_append_right _ member)
  rw [laterText]
  cases sources : document.withoutTemplate.sources with
  | nil => exact .inl rfl
  | cons source others =>
      rw [sources] at sound
      exact .inr (Source.opensTag_written source (sound source (by simp)) _)

theorem writtenAll_sources (present : document.template = some template) :
    Source.writtenAll document.sources =
      ("<template".toList ++ ((Attr.renderAll template.attrs).toList ++ ['>'])) ++
        document.contentText template := by
  simp [sources, present, contentText, laterText, withoutTemplate, Markup.Template.source,
    Source.written, Block.wrap]

/-- A component with a template is read back when the template's markup is read from the
content that is found, and the other blocks from what follows it. -/
theorem read_writtenAll_iff (legal : document.Legal) (quoteFree : document.QuoteFree)
    (present : document.template = some template) :
    Document.read (String.ofList (Source.writtenAll document.sources)) = .ok document.arranged ↔
      ∃ body rest, document.contentText template = body ++ bodyEnd (document.contentText template) ∧
        closing? templateTag (bodyEnd (document.contentText template)) = some rest ∧
        Document.read (String.ofList rest) = .ok document.withoutTemplate.arranged ∧
        Markup.Forest.read (String.ofList body) = template.children := by
  have opened : Block.openTemplate? (Source.writtenAll document.sources) =
      some (template.attrs, document.contentText template) := by
    rw [writtenAll_sources present]
    exact Block.openTemplate?_append (Source.openTemplate?_renderAll
      (legal.template template present) (quoteFree.template template present)) _
  obtain ⟨⟨body, whole⟩, -⟩ := Block.bodyEnd_suffix (document.contentText template)
  have found := Source.upTo_append body (bodyEnd (document.contentText template))
  rw [whole] at found
  rw [read_template_iff opened, found, arranged_eq_withTemplate present]
  constructor
  · rintro ⟨rest, others, closes, read, vacant, same⟩
    obtain ⟨rfl, content⟩ := withTemplate_inj rfl vacant same
    exact ⟨body, rest, whole.symm, closes, read,
      (congrArg Markup.Template.children content).symm⟩
  · rintro ⟨front, rest, parts, closes, read, content⟩
    have same : body = front := List.append_cancel_right (whole.trans parts)
    rw [same, content]
    exact ⟨rest, _, closes, read, rfl, rfl⟩

/-- A component with printable markup is read back exactly when its template is delimited. -/
theorem read_eq_arranged_iff (legal : document.Legal) (quoteFree : document.QuoteFree)
    (langs : document.LangsQuoteFree)
    (printable : ∀ template ∈ document.template, Markup.Forest.Printable template.children) :
    Document.read (String.ofList (Source.writtenAll document.sources)) = .ok document.arranged ↔
      document.Delimited := by
  have opens := opensTag_laterText legal
  constructor
  · intro read template present
    obtain ⟨body, rest, whole, closes, -, content⟩ :=
      (read_writtenAll_iff legal quoteFree present).1 read
    exact (read_content_iff (printable template present) opens whole closes).1 content
  · intro delimited
    cases present : document.template with
    | none => exact read_writtenAll legal quoteFree langs printable (by simp [present])
    | some template =>
        have markup := printable template present
        obtain ⟨ending, leaves, ends⟩ := delimited template present
        obtain ⟨body, whole⟩ := (Block.bodyEnd_suffix (document.contentText template)).1
        obtain ⟨rest, closes⟩ := leaves.exists_closing? ends
        have content := (read_content_iff markup opens whole.symm closes).2 ⟨ending, leaves, ends⟩
        refine (read_writtenAll_iff legal quoteFree present).2
          ⟨body, rest, whole.symm, closes, ?_, content⟩
        rw [ends] at closes
        rw [leaves.read_rest markup.wellFormed opens closes, read_laterText legal quoteFree langs]

end

/-! ## Components with canonical markup -/

/-- A component with legal blocks, no double quotes in values, and canonical markup is
printed. It is read back, with its attributes in written order, exactly when the search for
the end of the template's content leaves only closing tags before the blocks that follow; in
sheltered markup it does. -/
theorem read_render (document : Document) (legal : document.Legal)
    (quoteFree : document.QuoteFree) (langs : document.LangsQuoteFree)
    (canonical : ∀ template ∈ document.template, Markup.Forest.Canonical template.children) :
    ∃ text, document.render = .ok text ∧
      (Document.read text = .ok document.arranged ↔ document.Delimited) ∧
      ((∀ template ∈ document.template,
          ∀ token ∈ Markup.Forest.tokens template.children, token.Sheltered) →
        Document.read text = .ok document.arranged) := by
  have printable : ∀ template ∈ document.template,
      Markup.Forest.Printable template.children :=
    fun template present => (canonical template present).printable
  exact ⟨_, render_eq fun template present => (printable template present).formed,
    read_eq_arranged_iff legal quoteFree langs printable,
    read_writtenAll legal quoteFree langs printable⟩

/-- A component with sheltered markup, and one in which the content of the template is ended
too early, but leaves only closing tags. -/
theorem read_render_sample :
    let document : Document :=
      { template := some ⟨[⟨"lang", some "pug"⟩],
          [.element "template" [.directive "slot" (some (.expression "a" false)) [] none]
              [.text "1 > 0", .element "template" [] [] true,
                .element "template-x" [.attribute "a" (some (.text "<i></templates>"))] [] false]
              false,
            .comment "</template>", .interpolation (.expression "a < b" false)]⟩
        script := some ⟨some "ts", false, [⟨"src", some "a"⟩, ⟨"lang", none⟩], "'</scripts>'"⟩
        scriptSetup := some ⟨none, true, [⟨"a", none⟩, ⟨"setup", none⟩], "</style>"⟩
        styles := [⟨none, true, [], "<!--"⟩, ⟨some "less", false, [⟨"scoped", none⟩], ""⟩]
        customBlocks := [⟨"i18n", [⟨"a", some ""⟩], "<template>"⟩, ⟨"template-x", [], ""⟩] }
    let early : Document :=
      { empty with
        template := some ⟨[], [.element "template"
          [.directive "on" (some (.expression "a/>" false)) [] none] [] false]⟩
        styles := [⟨some "less", true, [], "p"⟩] }
    ((document.Legal ∧ document.QuoteFree ∧ document.LangsQuoteFree ∧
      (∀ template ∈ document.template, Markup.Forest.Canonical template.children) ∧
      ∀ template ∈ document.template,
        ∀ token ∈ Markup.Forest.tokens template.children, token.Sheltered) ∧
    ∃ text, document.render = .ok text ∧ Document.read text = .ok document.arranged) ∧
    (early.Legal ∧ early.QuoteFree ∧ early.LangsQuoteFree ∧
      (∀ template ∈ early.template, Markup.Forest.Canonical template.children) ∧
      (¬ ∀ template ∈ early.template,
        ∀ token ∈ Markup.Forest.tokens template.children, token.Sheltered) ∧ early.Delimited) ∧
    ∃ text, early.render = .ok text ∧ Document.read text = .ok early.arranged := by
  intro document early
  have legal : document.Legal := by decide +kernel
  have quoteFree : document.QuoteFree := by decide +kernel
  have langs : document.LangsQuoteFree := by decide +kernel
  have canonical : ∀ template ∈ document.template,
      Markup.Forest.Canonical template.children := by decide +kernel
  have sheltered : ∀ template ∈ document.template,
      ∀ token ∈ Markup.Forest.tokens template.children, token.Sheltered := by decide +kernel
  have earlyLegal : early.Legal := by decide +kernel
  have earlyFree : early.QuoteFree := by decide +kernel
  have earlyLangs : early.LangsQuoteFree := by decide +kernel
  have earlyCanonical : ∀ template ∈ early.template,
      Markup.Forest.Canonical template.children := by decide +kernel
  have delimited : early.Delimited := by
    rintro template ⟨⟩
    exact ⟨"</template></template>".toList,
      ⟨[.openTag "template" _ false], [.closeTag "template"], rfl,
        by simp [Markup.Token.isCloseTag], rfl⟩, by decide +kernel⟩
  obtain ⟨text, printed, -, read⟩ := read_render document legal quoteFree langs canonical
  obtain ⟨earlyText, earlyPrinted, exactly, -⟩ :=
    read_render early earlyLegal earlyFree earlyLangs earlyCanonical
  exact ⟨⟨⟨legal, quoteFree, langs, canonical, sheltered⟩, text, printed, read sheltered⟩,
    ⟨earlyLegal, earlyFree, earlyLangs, earlyCanonical, by decide +kernel, delimited⟩,
    earlyText, earlyPrinted, exactly.2 delimited⟩

/-- Canonical markup may hold a tag that is taken for a nested template's, and then the
text of the component is refused. -/
theorem read_render_unsheltered :
    let document : Document :=
      { empty with template := some ⟨[], [.element "template.x" [] [] false]⟩ }
    (document.Legal ∧ document.QuoteFree ∧ document.LangsQuoteFree ∧
      ∀ template ∈ document.template, Markup.Forest.Canonical template.children) ∧
    document.render = .ok "<template><template.x></template.x></template>" ∧
      Document.read "<template><template.x></template.x></template>" = .error .unreadable := by
  refine ⟨by decide +kernel, rfl, by decide +kernel⟩

/-! ## Formatting twice -/

/-- The languages of a component that is read are values of its attributes. -/
theorem Sound.langsQuoteFree {document : Document} (sound : document.Sound)
    (quoteFree : document.QuoteFree) : document.LangsQuoteFree := by
  have value {attrs : List Attr} (free : ∀ attr ∈ attrs, attr.QuoteFree) :
      ∀ lang ∈ Attr.valueOf? "lang" attrs, '"' ∉ lang.toList := by
    intro lang found
    rcases Option.bind_eq_some_iff.1 found with ⟨attr, first, isValue⟩
    exact free attr (List.mem_of_find?_eq_some first) lang isValue
  refine ⟨?_, ?_, ?_⟩
  · intro script present
    rw [sound.scriptLang script present]
    exact value (quoteFree.script script present)
  · intro script present
    rw [sound.setupLang script present]
    exact value (quoteFree.scriptSetup script present)
  · intro style present
    rw [sound.styleLang style present]
    exact value (quoteFree.styles style present)

/-- A text in which no value holds a double quote and the markup is legible is formatted to
one that is read as the same component, with its attributes in written order, exactly when
the search for the end of the template's content leaves only closing tags before the blocks
that follow. Then formatting leaves it as it is. In sheltered markup this is always so. -/
theorem format_format (source : String) (document : Document)
    (read : Document.read source = .ok document) (quoteFree : document.QuoteFree)
    (markupFree : ∀ template ∈ document.template,
      ∀ token ∈ Markup.Forest.tokens template.children, token.QuoteFree)
    (legible : ∀ template ∈ document.template,
      Markup.Token.Legible (Markup.Forest.tokens template.children)) :
    ∃ text, Document.format source = .ok text ∧
      (Document.read text = .ok document.arranged ↔ document.Delimited) ∧
      (document.Delimited → Document.format text = .ok text) ∧
      ((∀ template ∈ document.template,
          ∀ token ∈ Markup.Forest.tokens template.children, token.Sheltered) →
        Document.format text = .ok text ∧ Document.read text = .ok document.arranged) := by
  have sound := sound_of_read read
  have langs := sound.langsQuoteFree quoteFree
  have printable : ∀ template ∈ document.template,
      Markup.Forest.Printable template.children := by
    intro template present
    exact ⟨sound.formed template present, markupFree template present, legible template present⟩
  have same : document.arranged.render =
      .ok (String.ofList (Source.writtenAll document.sources)) := by
    rw [← sources_arranged document]
    exact render_eq sound.formed
  have exactly := read_eq_arranged_iff sound.legal quoteFree langs printable
  refine ⟨_, format_of_render read (render_eq sound.formed), exactly, fun delimited => ?_,
    fun sheltered => ?_⟩
  · exact format_of_render (exactly.2 delimited) same
  · have again := read_writtenAll sound.legal quoteFree langs printable sheltered
    exact ⟨format_of_render again same, again⟩

theorem format_format_sample :
    let source := "<style a='1' lang=less scoped></style><template>a < b<br><P [x]=1 #c.d>" ++
      "<template v-if='\x7b'></template></p>\x7b\x7bx\x7d\x7d</P><i/ ></template>"
    ∃ text, Document.format source = .ok text ∧ Document.format text = .ok text := by
  intro source
  have hypotheses : ∃ document, Document.read source = .ok document ∧ document.QuoteFree ∧
      (∀ template ∈ document.template,
        ∀ token ∈ Markup.Forest.tokens template.children, token.QuoteFree) ∧
      (∀ template ∈ document.template,
        Markup.Token.Legible (Markup.Forest.tokens template.children)) ∧
      ∀ template ∈ document.template,
        ∀ token ∈ Markup.Forest.tokens template.children, token.Sheltered := by decide +kernel
  rcases hypotheses with ⟨document, read, quoteFree, markupFree, legible, sheltered⟩
  rcases format_format source document read quoteFree markupFree legible with
    ⟨text, formatted, -, -, stable⟩
  exact ⟨text, formatted, (stable sheltered).1⟩

/-- Formatting changes a text twice in a row, although no value in it holds a double
quote. -/
def Unstable (source : String) : Prop :=
  ∃ document, Document.read source = .ok document ∧
    (document.QuoteFree ∧ ∀ template ∈ document.template,
      ∀ token ∈ Markup.Forest.tokens template.children, token.QuoteFree) ∧
    ∃ text, Document.format source = .ok text ∧ Document.format text ≠ .ok text

instance (source : String) : Decidable (Unstable source) :=
  inferInstanceAs (Decidable (∃ document, Document.read source = .ok document ∧ _))

/-- Texts are unstable where the name of a property holds an open bracket, where texts
around a dropped closing tag become a tag, and where a tag is taken for a nested
template's. -/
theorem format_format_unstable :
    Unstable "<template><div [a</template>" ∧ Unstable "<template><</x>b></template>" ∧
      Unstable "<template><template.x></template.x></template></template>" := by
  decide +kernel

/-! ## Components without a template -/

/-- The contents of the blocks after the template, in their order. -/
def contents (document : Document) : List String :=
  document.script.toList.map Script.content ++ (document.scriptSetup.toList.map Script.content ++
    (document.styles.map Style.content ++ document.customBlocks.map CustomBlock.content))

theorem contents_arranged (document : Document) :
    document.arranged.contents = document.contents := by
  have scripts (script : Option Script) : (script.map Script.arranged).toList.map Script.content =
      script.toList.map Script.content := by
    cases script <;> rfl
  have styles : (document.styles.map Style.arranged).map Style.content =
      document.styles.map Style.content := by
    rw [List.map_map]
    rfl
  simp only [contents, arranged, scripts, styles]

/-- A text without a template, in which no value holds a double quote, is formatted to one
that formatting leaves as it is. Its blocks are read back with their contents and in their
order; only the attributes of scripts and styles change, to written order. -/
theorem format_sections (source : String) (document : Document)
    (read : Document.read source = .ok document) (sectionsOnly : document.template = none)
    (quoteFree : document.QuoteFree) :
    ∃ text, Document.format source = .ok text ∧ Document.read text = .ok document.arranged ∧
      Document.format text = .ok text ∧
      (Document.read text).map contents = .ok document.contents := by
  have sound := sound_of_read read
  have again := read_writtenAll sound.legal quoteFree (sound.langsQuoteFree quoteFree)
    (by simp [sectionsOnly]) (by simp [sectionsOnly])
  have same : document.arranged.render =
      .ok (String.ofList (Source.writtenAll document.sources)) := by
    rw [render_eq (sound_of_read again).formed, sources_arranged]
  refine ⟨_, format_of_render read (render_eq sound.formed), again, format_of_render again same, ?_⟩
  rw [again]
  exact congrArg Except.ok (contents_arranged document)

theorem format_sections_sample :
    let source := "<style a=1/ lang=less scoped='x' lang>p</style\n> < <i18n k='</i18n>'></i18n>" ++
      "<!-- <i> --><script lang setup src=\"a\">'</scripts>'</script>"
    (∃ document, Document.read source = .ok document ∧ document.template = none ∧
      document.QuoteFree) ∧
    ∃ text, Document.format source = .ok text ∧ Document.format text = .ok text := by
  intro source
  have hypotheses : ∃ document, Document.read source = .ok document ∧
      document.template = none ∧ document.QuoteFree := by decide +kernel
  rcases hypotheses with ⟨document, read, sectionsOnly, quoteFree⟩
  rcases format_sections source document read sectionsOnly quoteFree with
    ⟨text, formatted, -, again, -⟩
  exact ⟨⟨document, read, sectionsOnly, quoteFree⟩, text, formatted, again⟩

end Document

end SingleFile
