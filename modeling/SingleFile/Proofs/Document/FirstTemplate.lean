import SingleFile.Document.Reader
import SingleFile.Markup.Printer
import SingleFile.Proofs.Block.Source

/-!
# The attributes of the first template in a text

The attributes of a template can be asked for without reading the component: the text
is searched for `<template`, and the opening tag is read where the search stops. The
search does not look at what follows these characters, so it also stops at a longer
name such as `<template-list`, where no template's tag is read.

Main statement: `readTemplateAttrs_of_first`. The first tag of a template gives its
attributes whatever stands around it, unless a longer name comes first.
-/

namespace SingleFile

open SingleFile.Text

namespace Block

/-- The text begins with the name of a template's opening tag, and the name ends there. -/
def BeginsTemplate (text : List Char) : Prop :=
  ∃ rest, text = "<template".toList ++ rest ∧ ∀ c ∈ rest.head?, isTagChar c = false

/-- In `before ++ text`, no template's tag begins before `text` does. -/
def NoTemplateBefore (before text : List Char) : Prop :=
  ∀ front back, before = front ++ back → back ≠ [] → ¬ BeginsTemplate (back ++ text)

theorem endOfName?_eq_some_iff {text rest : List Char} :
    endOfName? text = some rest ↔ text = rest ∧ ∀ c ∈ text.head?, isTagChar c = false := by
  cases text with
  | nil => simp [endOfName?]
  | cons c text => cases named : isTagChar c <;> simp [endOfName?, named]

theorem templateStart?_eq_some_iff {text rest : List Char} :
    templateStart? text = some rest ↔
      text = "<template".toList ++ rest ∧ ∀ c ∈ rest.head?, isTagChar c = false := by
  simp only [templateStart?, Option.bind_eq_some_iff, after?_eq_some_iff, endOfName?_eq_some_iff]
  constructor
  · rintro ⟨tail, rfl, rfl, ends⟩
    exact ⟨rfl, ends⟩
  · rintro ⟨rfl, ends⟩
    exact ⟨rest, rfl, rfl, ends⟩

theorem templateStart?_eq_none_iff {text : List Char} :
    templateStart? text = none ↔ ¬ BeginsTemplate text := by
  rw [Option.eq_none_iff_forall_ne_some]
  constructor
  · rintro unread ⟨rest, starts⟩
    exact unread rest (templateStart?_eq_some_iff.2 starts)
  · intro other rest starts
    exact other ⟨rest, templateStart?_eq_some_iff.1 starts⟩

/-- Where a search for the beginning of a template's tag stops, none begins before. -/
theorem noTemplateBefore_of_cutAt? {before text rest : List Char}
    (cut : cutAt? templateStart? (before ++ text) = some (before, rest)) :
    NoTemplateBefore before text := by
  rcases stop?_eq_none_of_cutAt? cut with ⟨tail, parts, -, passed⟩
  intro front back equal proper
  rw [List.append_cancel_left parts]
  exact templateStart?_eq_none_iff.1 (passed front back equal proper)

/-- The search for `<template` stops at the first one: a mark that reaches into it would
have a second `<` in it. -/
theorem cut?_template {before : List Char} (absent : ¬ "<template".toList <:+: before)
    (rest : List Char) :
    cut? "<template".toList (before ++ ("<template".toList ++ rest)) = some (before, rest) := by
  refine cutAt?_append ?_ (after?_append _ rest)
  intro front back equal proper
  rw [after?_eq_none_iff]
  intro begins
  apply absent
  have inside : "<template".toList <+: back := prefix_of_prefix_append (by decide) proper begins
  rw [equal]
  exact inside.isInfix.trans (List.suffix_append front back).isInfix

theorem firstTemplateAttrs?_append {before : List Char}
    (absent : ¬ "<template".toList <:+: before) (rest : List Char) :
    firstTemplateAttrs? (before ++ ("<template".toList ++ rest)) =
      ((endOfName? rest).bind readOpenTail?).map Prod.fst := by
  rw [firstTemplateAttrs?, cut?_template absent]

/-- Without `<template` before it, the first tag is where the search stops. -/
theorem firstTemplateAttrs?_of_absent {before text rest : List Char} {attrs : List Attr}
    (opening : openTemplate? text = some (attrs, rest))
    (absent : ¬ "<template".toList <:+: before) :
    firstTemplateAttrs? (before ++ text) = some attrs := by
  rcases Option.bind_eq_some_iff.1 opening with ⟨tail, starts, ends⟩
  rcases templateStart?_eq_some_iff.1 starts with ⟨rfl, ended⟩
  rw [firstTemplateAttrs?_append absent, endOfName?_eq_some ended, Option.bind_some, ends,
    Option.map_some]

/-- Where `<template` stands before the first tag, it begins a longer name, and the
search stops there. -/
theorem firstTemplateAttrs?_of_present {before text : List Char}
    (first : NoTemplateBefore before text) (present : "<template".toList <:+: before) :
    firstTemplateAttrs? (before ++ text) = none := by
  cases found : cut? "<template".toList before with
  | none => exact absurd present (cut?_eq_none_iff.1 found)
  | some parts =>
      rcases parts with ⟨earlier, back⟩
      have absent := not_infix_of_cut? (by decide) found
      have shape := eq_append_of_cut? found
      rw [List.append_assoc] at shape
      have longer : endOfName? (back ++ text) = none := by
        rw [Option.eq_none_iff_forall_ne_some]
        intro rest ended
        rcases endOfName?_eq_some_iff.1 ended with ⟨rfl, stops⟩
        refine first earlier _ shape (List.append_ne_nil_of_left_ne_nil (by decide) back) ?_
        exact ⟨back ++ text, List.append_assoc _ _ _, stops⟩
      rw [shape, List.append_assoc, List.append_assoc, firstTemplateAttrs?_append absent, longer]
      rfl

/-- The opening tag that a template is printed with is read back, whatever follows. -/
theorem openTemplate?_printed {attrs : List Attr} (legal : ∀ attr ∈ attrs, attr.Legal)
    (quoteFree : ∀ attr ∈ attrs, attr.QuoteFree) (more : List Char) :
    openTemplate? ((Markup.openTemplate attrs).toList ++ more) = some (attrs, more) := by
  have read := openTemplate?_append (Source.openTemplate?_renderAll legal quoteFree) more
  have bracket : ">".toList = ['>'] := rfl
  simpa only [Markup.openTemplate, String.toList_append, List.append_assoc, List.nil_append,
    bracket] using read

end Block

open Block (NoTemplateBefore)

/-- Where the first tag of a template in a text is complete, it gives its attributes
whatever precedes and follows it, unless `<template` stands before it, as the beginning of
a longer name: then nothing is read. The tag that a template is printed with is complete. -/
theorem readTemplateAttrs_of_first {before text rest : List Char} {attrs : List Attr}
    (first : NoTemplateBefore before text)
    (opening : Block.openTemplate? text = some (attrs, rest)) :
    (readTemplateAttrs (String.ofList (before ++ text)) = .ok attrs ↔
        ¬ "<template".toList <:+: before) ∧
      (readTemplateAttrs (String.ofList (before ++ text)) = .error .unreadable ↔
        "<template".toList <:+: before) ∧
      ∀ printed : List Attr, (∀ attr ∈ printed, attr.Legal) → (∀ attr ∈ printed, attr.QuoteFree) →
        ∀ more, Block.openTemplate? ((Markup.openTemplate printed).toList ++ more) =
          some (printed, more) := by
  rw [readTemplateAttrs, String.toList_ofList, ← and_assoc]
  refine ⟨?_, fun _ => Block.openTemplate?_printed⟩
  by_cases present : "<template".toList <:+: before
  · rw [Block.firstTemplateAttrs?_of_present first present]
    simp only [present]
    simp
  · rw [Block.firstTemplateAttrs?_of_absent opening present]
    simp only [present]
    simp

theorem readTemplateAttrs_of_first_sample :
    let before := "é <templat </template>".toList
    let text := "<template lang='>'\nx>é<template y>".toList
    let attrs : List Attr := [⟨"lang", some ">"⟩, ⟨"x", none⟩]
    NoTemplateBefore before text ∧
      readTemplateAttrs (String.ofList (before ++ text)) = .ok attrs ∧
      Block.openTemplate? ((Markup.openTemplate attrs).toList ++ text) = some (attrs, text) := by
  intro before text attrs
  have first : NoTemplateBefore before text :=
    @Block.noTemplateBefore_of_cutAt? before text " lang='>'\nx>é<template y>".toList
      (by decide +kernel)
  have opening : Block.openTemplate? text = some (attrs, "é<template y>".toList) := by
    decide +kernel
  have absent : ¬ "<template".toList <:+: before := by
    rw [← cut?_eq_none_iff]
    decide +kernel
  have read := readTemplateAttrs_of_first first opening
  exact ⟨first, read.1.2 absent, read.2.2 attrs (by decide +kernel) (by decide +kernel) text⟩

/-- A name that only begins like a template's hides the template after it. -/
theorem readTemplateAttrs_hidden :
    ¬ ∀ (before text rest : List Char) (attrs : List Attr), NoTemplateBefore before text →
      Block.openTemplate? text = some (attrs, rest) →
        readTemplateAttrs (String.ofList (before ++ text)) = .ok attrs := by
  intro always
  have first : NoTemplateBefore "<template-x/>".toList "<template lang=\"pug\">".toList :=
    @Block.noTemplateBefore_of_cutAt? _ _ " lang=\"pug\">".toList (by decide +kernel)
  have opening : Block.openTemplate? "<template lang=\"pug\">".toList =
      some ([⟨"lang", some "pug"⟩], []) := by decide +kernel
  have read := always _ _ _ _ first opening
  rw [readTemplateAttrs, String.toList_ofList, Block.firstTemplateAttrs?_of_present first
    ⟨[], "-x/>".toList, rfl⟩] at read
  cases read

end SingleFile
