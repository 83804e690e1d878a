import SingleFile.Proofs.Document.RoundTrip

/-!
# A forest between the tags of a template

A forest between `<template>` and `</template>` is the smallest component with markup:
nothing follows the template, so that a canonical forest is read back exactly when the
search for the end of the content stops at the closing tag, or stops earlier but leaves
nothing behind except closing tags.

Main statement: `Document.read_enclosed_forest`.
-/

namespace SingleFile

open SingleFile.Block (Source bodyEnd)

namespace Document

/-- A forest in its template is delimited when the search for the end of the content leaves
only closing tags. -/
theorem delimited_withTemplate_iff (forest : List Markup.Node) :
    (empty.withTemplate ⟨[], forest⟩).Delimited ↔
      LeavesClosings forest (bodyEnd (Markup.Token.writtenAll (Markup.Forest.tokens forest) ++
        "</template>".toList)) := by
  have content : (empty.withTemplate ⟨[], forest⟩).contentText ⟨[], forest⟩ =
      Markup.Token.writtenAll (Markup.Forest.tokens forest) ++ "</template>".toList := by
    simp [contentText, laterText, withoutTemplate, withTemplate, empty, sources]
  have last : (empty.withTemplate ⟨[], forest⟩).laterText = [] := rfl
  constructor
  · intro delimited
    obtain ⟨ending, leaves, ends⟩ := delimited ⟨[], forest⟩ rfl
    rw [content, last, List.append_nil] at ends
    exact ends ▸ leaves
  · rintro leaves template ⟨⟩
    exact ⟨_, leaves, by rw [content, last, List.append_nil]⟩

/-- The nodes of a canonical forest, printed one after the other between the tags of a
template, are read as this template and nothing else exactly when the search for the end
of the content leaves only closing tags of the forest; in sheltered markup it leaves
nothing. -/
theorem read_enclosed_forest (forest : List Markup.Node)
    (canonical : Markup.Forest.Canonical forest) :
    ∃ texts, forest.mapM Markup.Node.render = .ok texts ∧
      let source := "<template>" ++ String.join texts ++ "</template>"
      let document : Document := { empty with template := some ⟨[], forest⟩ }
      (Document.read source = .ok document ↔
        LeavesClosings forest (bodyEnd (String.join texts ++ "</template>").toList)) ∧
      ((∀ token ∈ Markup.Forest.tokens forest, token.Sheltered) →
        Document.read source = .ok document) := by
  obtain ⟨texts, printed, joined⟩ := Markup.Forest.mapM_render_eq canonical.wellFormed
  refine ⟨texts, printed, ?_⟩
  intro source document
  have content : (String.join texts ++ "</template>").toList =
      Markup.Token.writtenAll (Markup.Forest.tokens forest) ++ "</template>".toList := by
    rw [String.toList_append, joined, String.toList_ofList]
  have whole : source = String.ofList (Source.writtenAll document.sources) := by
    rw [← String.toList_inj, String.toList_ofList]
    simp [source, document, joined, sources, empty, Markup.Template.source, Source.written,
      Block.wrap, Attr.renderAll]
  have legal : document.Legal := by constructor <;> simp [document, empty]
  have quoteFree : document.QuoteFree := by constructor <;> simp [document, empty]
  have langs : document.LangsQuoteFree := by constructor <;> simp [document, empty]
  have printable : ∀ template ∈ document.template, Markup.Forest.Printable template.children := by
    rintro template ⟨⟩
    exact canonical.printable
  rw [whole, content, ← delimited_withTemplate_iff]
  refine ⟨read_eq_arranged_iff legal quoteFree langs printable, fun sheltered => ?_⟩
  apply read_writtenAll legal quoteFree langs printable
  rintro template ⟨⟩
  exact sheltered

/-- Markup that is sheltered, and markup in which the search stops too early but leaves only
closing tags. -/
theorem read_enclosed_forest_sample :
    let sheltered : List Markup.Node :=
      [.element "template" [.directive "slot" (some (.expression "a" false)) [] none]
          [.text "1 > 0", .element "template" [] [] true,
            .element "p" [.attribute "a" (some (.text "<i></templates>"))] [] false]
          false,
        .comment "</template>", .interpolation (.expression "a < b" false)]
    let early : List Markup.Node :=
      [.element "template" [.directive "on" (some (.expression "a/>" false)) [] none] [] false]
    (Markup.Forest.Canonical sheltered ∧
      (∀ token ∈ Markup.Forest.tokens sheltered, token.Sheltered) ∧
      ∃ texts, sheltered.mapM Markup.Node.render = .ok texts ∧
        Document.read ("<template>" ++ String.join texts ++ "</template>") =
          .ok { empty with template := some ⟨[], sheltered⟩ }) ∧
    Markup.Forest.Canonical early ∧
      (¬ ∀ token ∈ Markup.Forest.tokens early, token.Sheltered) ∧
      LeavesClosings early "</template></template>".toList ∧
      Document.read "<template><template v-on:[a/>]></template></template>" =
        .ok { empty with template := some ⟨[], early⟩ } := by
  intro sheltered early
  have shelteredOk : Markup.Forest.Canonical sheltered := by decide +kernel
  have tokensOk : ∀ token ∈ Markup.Forest.tokens sheltered, token.Sheltered := by decide +kernel
  have earlyOk : Markup.Forest.Canonical early := by decide +kernel
  have leaves : LeavesClosings early "</template></template>".toList :=
    ⟨[.openTag "template" _ false], [.closeTag "template"], rfl, by simp [Markup.Token.isCloseTag],
      rfl⟩
  have stops : bodyEnd "<template v-on:[a/>]></template></template>".toList =
      "</template></template>".toList := by decide +kernel
  obtain ⟨texts, printed, -, read⟩ := read_enclosed_forest sheltered shelteredOk
  obtain ⟨earlyTexts, earlyPrinted, exactly, -⟩ := read_enclosed_forest early earlyOk
  cases earlyPrinted
  refine ⟨⟨shelteredOk, tokensOk, texts, printed, read tokensOk⟩, earlyOk, by decide +kernel,
    leaves, exactly.2 ?_⟩
  exact stops ▸ leaves

/-- A canonical forest that is not read back from its text between the tags of a template. -/
def Misread (forest : List Markup.Node) (text : String) : Prop :=
  Markup.Forest.Canonical forest ∧
    (∃ texts, forest.mapM Markup.Node.render = .ok texts ∧ String.join texts = text) ∧
    Document.read ("<template>" ++ text ++ "</template>") ≠
      .ok { empty with template := some ⟨[], forest⟩ }

/-- A closing tag in a value, in the argument of a directive or in an interpolation ends the
template, and a tag with a dot is taken for a nested template. -/
theorem misread_unsheltered :
    Misread [.element "p" [.attribute "a" (some (.text "</template>"))] [] false]
        "<p a=\"</template>\"></p>" ∧
      Misread [.element "p" [.directive "on" (some (.expression "</template>" false)) [] none] []
          false]
        "<p v-on:[</template>]></p>" ∧
      Misread [.interpolation (.expression "</template>" false)]
        "\x7b\x7b </template> \x7d\x7d" ∧
      Misread [.element "template.x" [] [] false] "<template.x></template.x>" := by
  refine ⟨⟨by decide +kernel, ⟨_, rfl, rfl⟩, fun read => ?_⟩,
    ⟨by decide +kernel, ⟨_, rfl, rfl⟩, fun read => ?_⟩,
    ⟨by decide +kernel, ⟨_, rfl, rfl⟩, fun read => ?_⟩,
    ⟨by decide +kernel, ⟨_, rfl, rfl⟩, fun read => ?_⟩⟩
  all_goals
    -- The forest would be printed as the text that was read.
    have formatted := format_of_render read rfl
    revert formatted
    decide +kernel

end Document

end SingleFile
