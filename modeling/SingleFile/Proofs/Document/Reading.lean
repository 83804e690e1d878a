import SingleFile.Proofs.Document.Sections

/-!
# What is read from a component's text

Taking in blocks keeps a component sound: its blocks could be written as they are,
its template is formed, and the languages of its scripts and styles are those of
their attributes. A sound component can be printed, so that formatting fails only
where reading does.

Main statements: `Document.sound_of_read`, and `Document.format_eq_or_unread` for
formatting.
-/

namespace SingleFile

open SingleFile.Block (IsLegal IsRawTag Source)

namespace Document

/-- The blocks of a component can be written, each with the tag that makes it what it
is. -/
structure Legal (document : Document) : Prop where
  template : ∀ template ∈ document.template, ∀ attr ∈ template.attrs, attr.Legal
  script : ∀ script ∈ document.script,
    script.isSetup = false ∧ IsLegal "script" script.attrs script.content
  scriptSetup : ∀ script ∈ document.scriptSetup,
    script.isSetup = true ∧ IsLegal "script" script.attrs script.content
  styles : ∀ style ∈ document.styles, IsLegal "style" style.attrs style.content
  customBlocks : ∀ block ∈ document.customBlocks, IsRawTag block.type ∧ block.type ≠ "script" ∧
    block.type ≠ "style" ∧ IsLegal block.type block.attrs block.content

/-- What holds of every component that is read. -/
structure Sound (document : Document) : Prop where
  legal : document.Legal
  formed : ∀ template ∈ document.template,
    Markup.Forest.Formed Markup.Token.WellFormed template.children
  scriptLang : ∀ script ∈ document.script, script.lang = Attr.valueOf? "lang" script.attrs
  setupLang : ∀ script ∈ document.scriptSetup, script.lang = Attr.valueOf? "lang" script.attrs
  styleLang : ∀ style ∈ document.styles, style.lang = Attr.valueOf? "lang" style.attrs

theorem sound_empty : empty.Sound := by
  refine ⟨⟨?_, ?_, ?_, ?_, ?_⟩, ?_, ?_, ?_, ?_⟩ <;> simp [empty]

theorem Sound.addScript {document grown : Document} {attrs : List Attr} {content : String}
    (sound : document.Sound) (legal : IsLegal "script" attrs content)
    (added : document.addScript (Script.ofAttrs attrs content) = .ok grown) : grown.Sound := by
  rw [Document.addScript] at added
  split at added
  next isSetup =>
    split at added
    next => cases added
    next =>
      cases added
      exact { sound with
        legal := { sound.legal with scriptSetup := by rintro script ⟨⟩; exact ⟨isSetup, legal⟩ }
        setupLang := by rintro script ⟨⟩; rfl }
  next notSetup =>
    split at added
    next => cases added
    next =>
      cases added
      exact { sound with
        legal := { sound.legal with
          script := by rintro script ⟨⟩; exact ⟨Bool.eq_false_iff.2 notSetup, legal⟩ }
        scriptLang := by rintro script ⟨⟩; rfl }

/-- Taking in a raw block keeps a component sound. -/
theorem Sound.addRaw {document grown : Document} {tag : String} {attrs : List Attr}
    {content : String} (sound : document.Sound) (isRaw : IsRawTag tag)
    (legal : IsLegal tag attrs content) (added : document.addRaw tag attrs content = .ok grown) :
    grown.Sound := by
  rw [Document.addRaw] at added
  split at added
  next isScript =>
    subst isScript
    exact sound.addScript legal added
  next notScript =>
    split at added
    next isStyle =>
      subst isStyle
      cases added
      exact { sound with
        legal := { sound.legal with
          styles := List.forall_mem_append.2
            ⟨sound.legal.styles, by simpa [Style.ofAttrs] using legal⟩ }
        styleLang := List.forall_mem_append.2 ⟨sound.styleLang, by simp [Style.ofAttrs]⟩ }
    next notStyle =>
      cases added
      exact { sound with
        legal := { sound.legal with
          customBlocks := List.forall_mem_append.2
            ⟨sound.legal.customBlocks, by simpa using ⟨isRaw, notScript, notStyle, legal⟩⟩ } }

/-- Taking in a block keeps a component sound. -/
theorem Sound.add {document grown : Document} {source : Source} (sound : document.Sound)
    (sourceSound : source.Sound) (added : (document.add source).2 = .ok grown) : grown.Sound := by
  cases source with
  | template attrs body =>
      rw [Document.add] at added
      split at added
      next => cases added
      next =>
        cases added
        exact { sound with
          legal := { sound.legal with template := by rintro template ⟨⟩; exact sourceSound }
          formed := by rintro template ⟨⟩; exact Markup.Forest.formed_read body }
  | raw tag attrs content => exact sound.addRaw sourceSound.1 sourceSound.2 added

/-- Taking in blocks one after the other keeps a component sound. -/
theorem Sound.addAll {document grown : Document} {sources : List Source}
    (sound : document.Sound) (sourcesSound : ∀ source ∈ sources, source.Sound)
    (added : (document.addAll sources).2 = .ok grown) : grown.Sound := by
  induction sources generalizing document with
  | nil =>
      cases added
      exact sound
  | cons source sources ih =>
      rcases List.forall_mem_cons.1 sourcesSound with ⟨sourceSound, sourcesSound⟩
      rw [addAll_cons] at added
      cases accepted : (document.add source).2 with
      | error error =>
          rw [accepted] at added
          cases added
      | ok next =>
          rw [accepted] at added
          exact ih (sound.add sourceSound accepted) sourcesSound added

/-- Every component that is read is sound. -/
theorem sound_of_read {source : String} {document : Document}
    (read : Document.read source = .ok document) : document.Sound := by
  rw [Document.read, readWithEvents] at read
  split at read
  next => cases read
  next sources divided =>
    exact sound_empty.addAll (Block.Source.sound_of_readAll? divided) read

/-! ## Formatting -/

theorem format_of_read_error {source : String} {reason : ReadError}
    (read : Document.read source = .error reason) :
    Document.format source = .error (.read reason) := by
  rw [Document.read] at read
  rw [format, formatWithEvents]
  split <;> simp_all

theorem format_of_render {source text : String} {document : Document}
    (read : Document.read source = .ok document) (printed : document.render = .ok text) :
    Document.format source = .ok text := by
  rw [Document.read] at read
  rw [format, formatWithEvents]
  split
  next => simp_all
  next events other found =>
    have same : other = document := by simpa [found] using read
    simp [same, renderWithEvents, printed]

/-- Every template text is read as a formed forest, and every component text is either
refused by reading or read as a component that is printed. -/
theorem format_eq_or_unread (source : String) :
    Markup.Forest.Formed Markup.Token.WellFormed (Markup.Forest.read source) ∧
      ((∃ reason, Document.read source = .error reason ∧
          Document.format source = .error (.read reason)) ∨
        ∃ document text, Document.read source = .ok document ∧ document.render = .ok text ∧
          Document.format source = .ok text) := by
  refine ⟨Markup.Forest.formed_read source, ?_⟩
  cases read : Document.read source with
  | error reason => exact .inl ⟨reason, rfl, format_of_read_error read⟩
  | ok document =>
      have printed := render_eq (sound_of_read read).formed
      exact .inr ⟨document, _, rfl, printed, format_of_render read printed⟩

end Document

end SingleFile
