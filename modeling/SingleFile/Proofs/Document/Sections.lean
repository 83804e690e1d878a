import SingleFile.Document.Format
import SingleFile.Proofs.Block.Source
import SingleFile.Proofs.Markup.Invariant

/-!
# Components as sequences of blocks

Printing a component and reading it meet at its blocks: `Document.sources` lists
them in the order in which they are written. Reading them gives the component
back up to the order of attributes in scripts and styles, where the language and
the flag come first; `Document.arranged` is the component with its attributes in
this order.

Main statements: `Document.render_eq` and `Document.addAll_sources`.
-/

namespace SingleFile

open SingleFile.Block (IsLegal IsRawTag Source)

/-! ## Attributes in written order -/

namespace Attr

theorem mem_arrange_iff {attr : Attr} {lang : Option String} {flag : String} {flagged : Bool}
    {attrs : List Attr} :
    attr ∈ arrange lang flag flagged attrs ↔
      (∃ value ∈ lang, attr = ⟨"lang", some value⟩) ∨ (flagged = true ∧ attr = ⟨flag, none⟩) ∨
        (attr ∈ attrs ∧ attr.name ≠ "lang" ∧ attr.name ≠ flag) := by
  cases lang <;> cases flagged <;> simp [arrange]

section

variable {flag : String} (other : flag ≠ "lang") (lang : Option String) (flagged : Bool)
  (attrs : List Attr)

include other

/-- The language is found among attributes in written order. -/
theorem valueOf?_arrange : valueOf? "lang" (arrange lang flag flagged attrs) = lang := by
  cases lang with
  | some lang => simp [valueOf?, arrange]
  | none =>
      have missing : (arrange none flag flagged attrs).find? (·.name = "lang") = none := by
        rw [List.find?_eq_none]
        intro attr member
        rcases mem_arrange_iff.1 member with ⟨value, present, -⟩ | ⟨-, rfl⟩ | ⟨-, kept, -⟩
        · cases present
        · simpa using other
        · simpa using kept
      rw [valueOf?, missing]
      rfl

/-- The flag is found among attributes in written order. -/
theorem has_arrange : has flag (arrange lang flag flagged attrs) = flagged := by
  rw [Bool.eq_iff_iff, has, List.any_eq_true]
  constructor
  · rintro ⟨attr, member, named⟩
    rw [decide_eq_true_eq] at named
    rcases mem_arrange_iff.1 member with ⟨value, -, rfl⟩ | ⟨isFlagged, -⟩ | ⟨-, -, kept⟩
    · exact absurd named.symm other
    · exact isFlagged
    · exact absurd named kept
  · intro isFlagged
    exact ⟨⟨flag, none⟩, mem_arrange_iff.2 (.inr (.inl ⟨isFlagged, rfl⟩)), by simp⟩

omit other in
/-- Attributes in written order keep it. -/
theorem arrange_arrange :
    arrange lang flag flagged (arrange lang flag flagged attrs) =
      arrange lang flag flagged attrs := by
  have kept : (arrange lang flag flagged attrs).filter
      (fun attr => attr.name ≠ "lang" && attr.name ≠ flag) =
      attrs.filter fun attr => attr.name ≠ "lang" && attr.name ≠ flag := by
    cases lang <;> cases flagged <;> simp [arrange, List.filter_filter]
  exact congrArg (_ ++ ·) kept

end

theorem legal_arrange {lang : Option String} {flag : String} {flagged : Bool} {attrs : List Attr}
    (flagLegal : (⟨flag, none⟩ : Attr).Legal) (legal : ∀ attr ∈ attrs, attr.Legal) :
    ∀ attr ∈ arrange lang flag flagged attrs, attr.Legal := by
  intro attr member
  rcases mem_arrange_iff.1 member with ⟨value, -, rfl⟩ | ⟨-, rfl⟩ | ⟨member, -⟩
  · have named : (⟨"lang", none⟩ : Attr).Legal := by decide
    exact named
  · exact flagLegal
  · exact legal attr member

theorem quoteFree_arrange {lang : Option String} {flag : String} {flagged : Bool}
    {attrs : List Attr} (langFree : ∀ value ∈ lang, '"' ∉ value.toList)
    (quoteFree : ∀ attr ∈ attrs, attr.QuoteFree) :
    ∀ attr ∈ arrange lang flag flagged attrs, attr.QuoteFree := by
  intro attr member
  rcases mem_arrange_iff.1 member with ⟨value, isLang, rfl⟩ | ⟨-, rfl⟩ | ⟨member, -⟩
  · rintro found ⟨⟩
    exact langFree value isLang
  · rintro found ⟨⟩
  · exact quoteFree attr member

end Attr

/-! ## Blocks of a component -/

namespace Script

/-- The script with its attributes in written order. -/
def arranged (script : Script) : Script := { script with attrs := script.writtenAttrs }

/-- The script as a block. -/
def source (script : Script) : Source := .raw "script" script.writtenAttrs script.content

theorem ofAttrs_writtenAttrs (script : Script) :
    ofAttrs script.writtenAttrs script.content = script.arranged := by
  rw [ofAttrs, writtenAttrs, Attr.valueOf?_arrange (by decide), Attr.has_arrange (by decide)]
  rfl

theorem source_arranged (script : Script) : script.arranged.source = script.source := by
  rw [source, writtenAttrs, arranged, writtenAttrs, Attr.arrange_arrange]
  rfl

end Script

namespace Style

/-- The style with its attributes in written order. -/
def arranged (style : Style) : Style := { style with attrs := style.writtenAttrs }

/-- The style as a block. -/
def source (style : Style) : Source := .raw "style" style.writtenAttrs style.content

theorem ofAttrs_writtenAttrs (style : Style) :
    ofAttrs style.writtenAttrs style.content = style.arranged := by
  rw [ofAttrs, writtenAttrs, Attr.valueOf?_arrange (by decide), Attr.has_arrange (by decide)]
  rfl

theorem source_arranged (style : Style) : style.arranged.source = style.source := by
  rw [source, writtenAttrs, arranged, writtenAttrs, Attr.arrange_arrange]
  rfl

end Style

/-- The custom block as a block. -/
def CustomBlock.source (block : CustomBlock) : Source := .raw block.type block.attrs block.content

namespace Markup.Template

/-- The template as a block. -/
def source (template : Template) : Source :=
  .template template.attrs (String.ofList (Token.writtenAll (Forest.tokens template.children)))

theorem render_eq {template : Template}
    (formed : Forest.Formed Token.WellFormed template.children) :
    template.render = .ok (String.ofList template.source.written) := by
  rw [Template.render, Node.render, Forest.renderChildren_eq 0 template.children formed]
  apply ok_eq_ofList
  simp [source, Source.written, Block.wrap, openTemplate]

end Markup.Template

namespace Document

/-- The blocks of a component in the order in which they are written. -/
def sources (document : Document) : List Source :=
  (document.template.map Markup.Template.source).toList ++
    ((document.script.map Script.source).toList ++
      ((document.scriptSetup.map Script.source).toList ++
        (document.styles.map Style.source ++ document.customBlocks.map CustomBlock.source)))

/-- The component with the attributes of scripts and styles in written order. -/
def arranged (document : Document) : Document :=
  { document with
    script := document.script.map Script.arranged
    scriptSetup := document.scriptSetup.map Script.arranged
    styles := document.styles.map Style.arranged }

theorem sources_arranged (document : Document) : document.arranged.sources = document.sources := by
  have scripts (script : Option Script) :
      (script.map Script.arranged).map Script.source = script.map Script.source := by
    cases script with
    | none => rfl
    | some script => simp [Script.source_arranged]
  have styles : (document.styles.map Style.arranged).map Style.source =
      document.styles.map Style.source := by
    simp [Style.source_arranged]
  simp only [sources, arranged, scripts, styles]

/-! ## Printing -/

theorem toList_renderStyles (styles : List Style) :
    (Style.renderAll styles).toList = Source.writtenAll (styles.map Style.source) := by
  induction styles with
  | nil => rfl
  | cons style styles ih =>
      simp [Style.renderAll, ih, Style.render, Style.source, Source.written]

theorem toList_renderCustomBlocks (blocks : List CustomBlock) :
    (CustomBlock.renderAll blocks).toList = Source.writtenAll (blocks.map CustomBlock.source) := by
  induction blocks with
  | nil => rfl
  | cons block blocks ih =>
      simp [CustomBlock.renderAll, ih, CustomBlock.render, CustomBlock.source, Source.written]

theorem toList_renderScript (script : Option Script) :
    ((script.map Script.render).getD "").toList =
      Source.writtenAll (script.map Script.source).toList := by
  cases script with
  | none => rfl
  | some script => simp [Script.render, Script.source, Source.written]

/-- A component with a formed template is printed as the text of its blocks. -/
theorem render_eq {document : Document}
    (formed : ∀ template ∈ document.template,
      Markup.Forest.Formed Markup.Token.WellFormed template.children) :
    document.render = .ok (String.ofList (Source.writtenAll document.sources)) := by
  have blocks : document.renderBlocks.toList = Source.writtenAll
      ((document.script.map Script.source).toList ++
        ((document.scriptSetup.map Script.source).toList ++
          (document.styles.map Style.source ++ document.customBlocks.map CustomBlock.source))) := by
    simp [renderBlocks, toList_renderScript, toList_renderStyles, toList_renderCustomBlocks]
  have template : document.renderTemplate = .ok (String.ofList
      (Source.writtenAll (document.template.map Markup.Template.source).toList)) := by
    cases present : document.template with
    | none => simp [renderTemplate, present]
    | some template =>
        simp [renderTemplate, present, Markup.Template.render_eq (formed template present)]
  rw [render, template]
  apply Markup.ok_eq_ofList
  rw [String.toList_append, String.toList_ofList, blocks, sources, ← Source.writtenAll_append]

/-! ## Reading -/

/-- Blocks are taken in up to the first that is refused. -/
theorem addAll_cons (document : Document) (source : Source) (sources : List Source) :
    (document.addAll (source :: sources)).2 =
      (document.add source).2.bind fun grown => (grown.addAll sources).2 := by
  rw [addAll]
  split
  next refused =>
    rw [refused]
    rfl
  next accepted =>
    rw [accepted]
    rfl

/-- What is taken in after a sequence of blocks is taken in by the component that they
give. -/
theorem addAll_append {document grown : Document} {front : List Source}
    (added : (document.addAll front).2 = .ok grown) (back : List Source) :
    (document.addAll (front ++ back)).2 = (grown.addAll back).2 := by
  induction front generalizing document with
  | nil =>
      cases added
      rfl
  | cons source front ih =>
      rw [List.cons_append, addAll_cons]
      rw [addAll_cons] at added
      cases accepted : (document.add source).2 with
      | error error =>
          rw [accepted] at added
          cases added
      | ok next =>
          rw [accepted] at added
          exact ih added

theorem addAll_singleton (document : Document) (source : Source) :
    (document.addAll [source]).2 = (document.add source).2 := by
  rw [addAll_cons]
  cases (document.add source).2 <;> rfl

theorem addAll_template {document : Document}
    (readBack : ∀ template ∈ document.template, Markup.Forest.read
      (String.ofList (Markup.Token.writtenAll (Markup.Forest.tokens template.children))) =
        template.children) :
    (empty.addAll (document.template.map Markup.Template.source).toList).2 =
      .ok { empty with template := document.template } := by
  cases present : document.template with
  | none => rfl
  | some template =>
      rw [Option.map_some, Option.toList_some, addAll_singleton]
      simp [add, Markup.Template.source, empty, readBack template present]

theorem addAll_script {document : Document} {script : Option Script}
    (free : document.script = none) (plain : ∀ other ∈ script, other.isSetup = false) :
    (document.addAll (script.map Script.source).toList).2 =
      .ok { document with script := script.map Script.arranged } := by
  cases script with
  | none =>
      rcases document with ⟨template, main, setup, styles, blocks⟩
      cases free
      rfl
  | some script =>
      have notSetup : script.arranged.isSetup = false := plain script rfl
      rw [Option.map_some, Option.toList_some, addAll_singleton]
      simp [add, Script.source, addRaw, Script.ofAttrs_writtenAttrs, addScript, notSetup, free]

theorem addAll_scriptSetup {document : Document} {script : Option Script}
    (free : document.scriptSetup = none) (marked : ∀ other ∈ script, other.isSetup = true) :
    (document.addAll (script.map Script.source).toList).2 =
      .ok { document with scriptSetup := script.map Script.arranged } := by
  cases script with
  | none =>
      rcases document with ⟨template, main, setup, styles, blocks⟩
      cases free
      rfl
  | some script =>
      have isSetup : script.arranged.isSetup = true := marked script rfl
      rw [Option.map_some, Option.toList_some, addAll_singleton]
      simp [add, Script.source, addRaw, Script.ofAttrs_writtenAttrs, addScript, isSetup, free]

theorem addAll_styles (document : Document) (styles : List Style) :
    (document.addAll (styles.map Style.source)).2 =
      .ok { document with styles := document.styles ++ styles.map Style.arranged } := by
  induction styles generalizing document with
  | nil => simp [addAll]
  | cons style styles ih =>
      rw [List.map_cons, addAll]
      simp [add, Style.source, addRaw, Style.ofAttrs_writtenAttrs, ih]

theorem addAll_customBlocks (document : Document) {blocks : List CustomBlock}
    (others : ∀ block ∈ blocks, block.type ≠ "script" ∧ block.type ≠ "style") :
    (document.addAll (blocks.map CustomBlock.source)).2 =
      .ok { document with customBlocks := document.customBlocks ++ blocks } := by
  induction blocks generalizing document with
  | nil => simp [addAll]
  | cons block blocks ih =>
      rcases List.forall_mem_cons.1 others with ⟨other, others⟩
      rw [List.map_cons, addAll]
      simp [add, CustomBlock.source, addRaw, other, ih _ others]

/-- The blocks of a component are taken in as this component, with its attributes in
written order. -/
theorem addAll_sources {document : Document}
    (readBack : ∀ template ∈ document.template, Markup.Forest.read
      (String.ofList (Markup.Token.writtenAll (Markup.Forest.tokens template.children))) =
        template.children)
    (plain : ∀ script ∈ document.script, script.isSetup = false)
    (setup : ∀ script ∈ document.scriptSetup, script.isSetup = true)
    (others : ∀ block ∈ document.customBlocks, block.type ≠ "script" ∧ block.type ≠ "style") :
    (empty.addAll document.sources).2 = .ok document.arranged := by
  rw [sources, addAll_append (addAll_template readBack), addAll_append (addAll_script rfl plain),
    addAll_append (addAll_scriptSetup rfl setup), addAll_append (addAll_styles _ document.styles),
    addAll_customBlocks _ others]
  rfl

end Document

end SingleFile
