import SingleFile.Proofs.Document.Extent
import SingleFile.Proofs.Markup.Continuation

/-!
# Where the content of a template ends

The content of a template is found before it is read, by other rules: quoted values and
interpolations are not opaque there, and names end earlier. So the content that is found
for the text of a forest may end before the closing tag that is written after it, or go on
behind that tag into the blocks that follow.

A printable forest is read from the content that is found exactly when the rest of the
text is closing tags of the forest, the one of the template, and the blocks that follow.
Those closing tags are stray text: they are passed over, and not missed in the forest.

Main statements: `Document.read_template_iff` for any content, and
`Document.read_content_iff` for the text of a forest.
-/

namespace SingleFile

open SingleFile.Text

namespace Block

/-! ## Where the content ends -/

theorem suffix_of_closing? {tag text rest : List Char} (read : closing? tag text = some rest) :
    rest <:+ text := by
  obtain ⟨blanks, -, rfl⟩ := closing?_eq_some_iff.1 read
  exact ⟨'<' :: '/' :: (tag ++ (blanks ++ ['>'])), by simp⟩

theorem suffix_of_comment? {text rest : List Char} (read : comment? text = some rest) :
    rest <:+ text := by
  simp only [comment?, Option.map_eq_some_iff, Option.bind_eq_some_iff] at read
  obtain ⟨⟨content, tail⟩, ⟨body, begins, cut⟩, rfl⟩ := read
  rw [after?_eq_some_iff.1 begins, eq_append_of_cut? cut, ← List.append_assoc]
  exact List.suffix_append _ _

theorem suffix_of_templateStart? {text rest : List Char} (read : templateStart? text = some rest) :
    rest <:+ text := by
  simp only [templateStart?, Option.bind_eq_some_iff] at read
  obtain ⟨tail, begins, ends⟩ := read
  have same : rest = tail := by
    unfold endOfName? at ends
    split at ends
    · simpa using ends.symm
    · split at ends
      · simp at ends
      · simpa using ends.symm
  rw [after?_eq_some_iff.1 begins, same]
  exact List.suffix_append _ _

theorem skipQuoted_suffix (c : Char) (rest : List Char) : skipQuoted c rest <:+ rest := by
  rw [skipQuoted]
  split
  · cases cut : cut? [c] rest with
    | none => exact List.suffix_refl rest
    | some parts =>
        rw [eq_append_of_cut? cut]
        exact List.suffix_append _ _
  · exact List.suffix_refl rest

theorem suffix_of_nestedTagEnd? {text rest : List Char} {selfClosing : Bool}
    (read : nestedTagEnd? text = some (selfClosing, rest)) : rest <:+ text := by
  fun_induction nestedTagEnd? text with
  | case1 => cases read
  | case2 tail =>
      cases read
      exact (List.suffix_cons '>' rest).trans (List.suffix_cons '/' _)
  | case3 tail =>
      cases read
      exact List.suffix_cons '>' rest
  | case4 c tail _ _ ih =>
      exact (ih read).trans ((skipQuoted_suffix c tail).trans (List.suffix_cons c tail))

theorem suffix_of_nestedTag? {text rest : List Char} {selfClosing : Bool}
    (read : nestedTag? text = some (selfClosing, rest)) : rest <:+ text := by
  simp only [nestedTag?, Option.bind_eq_some_iff] at read
  obtain ⟨tail, begins, ends⟩ := read
  exact (suffix_of_nestedTagEnd? ends).trans (suffix_of_templateStart? begins)

/-- The search for the end of the content stops at a closing tag, or finds none. -/
theorem bodyEnd_suffix (text : List Char) :
    bodyEnd text <:+ text ∧
      (bodyEnd text = [] ∨ (closing? templateTag (bodyEnd text)).isSome = true) := by
  have shorter (other : List Char) (less : other.length < text.length) := bodyEnd_suffix other
  have passed (tail : List Char) (less : tail.length < text.length) (inside : tail <:+ text) :
      bodyEnd tail <:+ text ∧
        (bodyEnd tail = [] ∨ (closing? templateTag (bodyEnd tail)).isSome = true) :=
    ⟨(shorter tail less).1.trans inside, (shorter tail less).2⟩
  rw [bodyEnd_eq]
  split
  next tail comment =>
    exact passed tail (length_lt_of_comment? comment) (suffix_of_comment? comment)
  next =>
    split
    next tail nested =>
      apply passed tail (length_lt_of_nested? nested)
      rw [nested?_eq] at nested
      split at nested
      next => cases nested
      next tag =>
        cases nested
        exact suffix_of_nestedTag? tag
      next inner tag =>
        have content := (shorter inner (length_lt_of_nestedTag? tag)).1
        exact (suffix_of_closing? nested).trans (content.trans (suffix_of_nestedTag? tag))
    next =>
      split
      next closes => exact ⟨List.suffix_refl text, .inr closes⟩
      next =>
        cases text with
        | nil => exact ⟨List.suffix_refl [], .inl rfl⟩
        | cons c tail => exact passed tail (Nat.lt_succ_self _) (List.suffix_cons c tail)
termination_by text.length

/-! ## Stray closing tags -/

namespace Source

/-- Text in which only closing tags can begin. -/
def Slashed (text : List Char) : Prop :=
  ∀ front back, text = front ++ '<' :: back → back.head? = some '/'

theorem Slashed.of_suffix {text rest : List Char} (slashed : Slashed text)
    (inside : rest <:+ text) : Slashed rest := by
  rintro front back rfl
  obtain ⟨before, rfl⟩ := inside
  exact slashed (before ++ front) back (by simp)

theorem slashed_nil : Slashed [] := by
  intro front back equal
  simp at equal

theorem Slashed.isStray {text : List Char} (slashed : Slashed text) : IsStray text := by
  constructor
  · rintro c - letter ⟨before, after, rfl⟩
    have slash : c = '/' := by simpa using slashed before (c :: after) (by simp)
    rw [slash] at letter
    cases letter
  · rintro ⟨before, after, rfl⟩
    have slash := slashed before ("!--".toList ++ after) (by simp)
    cases slash

/-- A closing tag may stand before such text. -/
theorem Slashed.closeTag {tag rest : List Char} (unmarked : '<' ∉ tag) (slashed : Slashed rest) :
    Slashed ('<' :: '/' :: (tag ++ '>' :: rest)) := by
  intro front back equal
  cases front with
  | nil =>
      cases equal
      rfl
  | cons c front =>
      have absent : '<' ∉ '/' :: (tag ++ ['>']) := by simpa using unmarked
      have tail : ('/' :: (tag ++ ['>'])) ++ rest = front ++ '<' :: back := by
        simpa using (List.cons.inj equal).2
      rcases List.append_eq_append_iff.1 tail with ⟨more, -, later⟩ | ⟨more, here, later⟩
      · exact slashed more back later
      · cases more with
        | nil => exact slashed [] back later.symm
        | cons d more =>
            have marked : '<' ∈ '/' :: (tag ++ ['>']) := by
              rw [here, ← (List.cons.inj later).1]
              simp
            exact absurd marked absent

theorem exists_of_opensTag {text : List Char} (opens : opensTag text = true) :
    ∃ c rest, text = '<' :: c :: rest ∧ c.isAlpha = true := by
  unfold opensTag at opens
  split at opens
  next c rest => exact ⟨c, rest, rfl, opens⟩
  next => cases opens

/-- The blocks of a text that begins with the opening tag of a template. -/
theorem readAll?_template {text body : List Char} {attrs : List Attr}
    (opened : openTemplate? text = some (attrs, body)) :
    readAll? text =
      (closing? templateTag (bodyEnd body)).bind fun rest =>
        (readAll? rest).map (.template attrs (String.ofList (upTo body (bodyEnd body))) :: ·) := by
  obtain ⟨tail, begins, -⟩ := Option.bind_eq_some_iff.1 opened
  have notRaw : raw? text = none := by
    cases read : rawTag? text with
    | none => rw [raw?, read]; rfl
    | some found => cases (templateStart?_of_rawTag? read).symm.trans begins
  have opens : opensTag text = true := by
    obtain ⟨found, named, -⟩ := Option.bind_eq_some_iff.1 begins
    rw [after?_eq_some_iff.1 named]
    rfl
  have read : read? text = (closing? templateTag (bodyEnd body)).map fun rest =>
      (.template attrs (String.ofList (upTo body (bodyEnd body))), rest) := by
    rw [read?, notRaw, template?, opened]
    simp only [Option.bind_eq_bind, Option.bind_some]
    cases closing? templateTag (bodyEnd body) <;> rfl
  cases closes : closing? templateTag (bodyEnd body) with
  | none =>
      rw [closes, Option.map_none] at read
      cases text with
      | nil => cases opens
      | cons c text =>
          rw [readAll?, if_pos opens]
          split
          next found => cases found.symm.trans read
          next => rfl
  | some rest =>
      rw [closes, Option.map_some] at read
      exact readAll?_of_read? opens read

end Source

end Block

open Block (Source bodyEnd closing? openTemplate? templateTag)

namespace Document

/-- A text that begins with the opening tag of a template is read when a closing tag follows
the content and what follows this tag is read as a component without a template. -/
theorem read_template_iff {source body : List Char} {attrs : List Attr}
    (opened : openTemplate? source = some (attrs, body)) (document : Document) :
    Document.read (String.ofList source) = .ok document ↔
      ∃ rest others, closing? templateTag (bodyEnd body) = some rest ∧
        Document.read (String.ofList rest) = .ok others ∧ others.template = none ∧
        document = others.withTemplate
          ⟨attrs, Markup.Forest.read (String.ofList (upTo body (bodyEnd body)))⟩ := by
  have divided := Source.readAll?_template opened
  cases closes : closing? templateTag (bodyEnd body) with
  | none =>
      have failed := (read_eq_unreadable_iff (String.ofList source)).2
        (by rw [String.toList_ofList, divided, closes]; rfl)
      rw [failed]
      simp
  | some rest =>
      rw [closes, Option.bind_some] at divided
      simp only [Option.some.injEq, exists_and_left, exists_eq_left']
      rw [Document.read, readWithEvents, String.toList_ofList, divided, Document.read,
        readWithEvents, String.toList_ofList]
      cases Source.readAll? rest with
      | none => simp
      | some sources => exact addAll_withTemplate rfl sources

theorem withTemplate_inj {document other : Document} {template next : Markup.Template}
    (free : document.template = none) (vacant : other.template = none)
    (same : document.withTemplate template = other.withTemplate next) :
    document = other ∧ template = next := by
  cases document
  cases other
  simp_all [withTemplate]

/-- From `rest` on a text holds only closing tags of the forest and the one of the
template. -/
def LeavesClosings (forest : List Markup.Node) (rest : List Char) : Prop :=
  ∃ front back, Markup.Forest.tokens forest = front ++ back ∧
    (∀ token ∈ back, token.isCloseTag = true) ∧
    rest = Markup.Token.writtenAll back ++ "</template>".toList

section

variable {forest : List Markup.Node} {ending later : List Char}

theorem LeavesClosings.slashed
    (wellFormed : ∀ token ∈ Markup.Forest.tokens forest, token.WellFormed)
    (leaves : LeavesClosings forest ending) : Source.Slashed ending := by
  obtain ⟨front, back, parts, closing, rfl⟩ := leaves
  have named : ∀ token ∈ back, token.WellFormed := by
    intro token member
    exact wellFormed token (by simp [parts, member])
  clear parts
  induction back with
  | nil => exact @Source.Slashed.closeTag "template".toList [] (by decide) Source.slashed_nil
  | cons token back ih =>
      have later := ih (fun other member => closing other (by simp [member]))
        (fun other member => named other (by simp [member]))
      cases token with
      | closeTag tag =>
          have here := Source.Slashed.closeTag
            (Markup.Token.not_mem_of_isTagName (named (.closeTag tag) (by simp))) later
          simpa [Markup.Token.written] using here
      | _ => cases closing _ (List.mem_cons_self ..)

theorem LeavesClosings.ne_nil (leaves : LeavesClosings forest ending) : ending ≠ [] := by
  obtain ⟨front, back, -, -, rfl⟩ := leaves
  simp

theorem LeavesClosings.exists_closing? {text : List Char} (leaves : LeavesClosings forest ending)
    (ends : bodyEnd text = ending ++ later) :
    ∃ rest, closing? templateTag (bodyEnd text) = some rest := by
  rcases (Block.bodyEnd_suffix text).2 with nothing | closes
  · rw [ends] at nothing
    exact absurd (List.append_eq_nil_iff.1 nothing).1 leaves.ne_nil
  · exact Option.isSome_iff_exists.1 closes

/-- Behind the closing tag that ends the content, closing tags are passed over. -/
theorem LeavesClosings.read_rest
    (wellFormed : ∀ token ∈ Markup.Forest.tokens forest, token.WellFormed)
    (leaves : LeavesClosings forest ending)
    (opens : later = [] ∨ Source.opensTag later = true) {rest : List Char}
    (closes : closing? templateTag (ending ++ later) = some rest) :
    Document.read (String.ofList rest) = Document.read (String.ofList later) := by
  have follows : ∀ c ∈ later.head?, c = '<' := by
    rintro c head
    rcases opens with rfl | opens
    · cases head
    · rw [Source.head?_of_opensTag opens] at head
      cases head
      rfl
  obtain ⟨blanks, blank, whole⟩ := Block.closing?_eq_some_iff.1 closes
  have parts : ending ++ later = ('<' :: '/' :: (templateTag ++ (blanks ++ ['>']))) ++ rest := by
    simp [whole]
  rcases List.append_eq_append_iff.1 parts with ⟨more, tag, rfl⟩ | ⟨more, rfl, rfl⟩
  · -- The tag has no second `<`, with which a block would begin.
    cases more with
    | nil => rfl
    | cons c more =>
        cases ending with
        | nil => exact absurd rfl leaves.ne_nil
        | cons d ending =>
            have second : '<' ∈ '/' :: (templateTag ++ (blanks ++ ['>'])) := by
              rw [(List.cons.inj tag).2, follows c rfl]
              simp
            have absent : '<' ∉ templateTag := by decide
            have within : '<' ∈ blanks := by simpa [absent] using second
            exact absurd (blank '<' within) (by decide)
  · have stray := ((leaves.slashed wellFormed).of_suffix (List.suffix_append _ more)).isStray
    simp only [Document.read, readWithEvents, String.toList_ofList,
      Source.readAll?_of_isStray stray follows]

/-- A content that is found in front of a closing tag ends in the text, or goes on with an
opening tag behind the closing tag that is written after the text. -/
theorem content_cases {text body rest : List Char}
    (opens : later = [] ∨ Source.opensTag later = true)
    (whole : text ++ ("</template>".toList ++ later) = body ++ ending)
    (closes : closing? templateTag ending = some rest) :
    (∃ cut, text = body ++ cut ∧ ending = cut ++ ("</template>".toList ++ later) ∧
      ∀ c ∈ cut.head?, c = '<') ∨
    ∃ c more, c.isAlpha = true ∧ body = text ++ ("</template>".toList ++ '<' :: c :: more) := by
  obtain ⟨blanks, -, shape⟩ := Block.closing?_eq_some_iff.1 closes
  have other : later ≠ ending := by
    rintro rfl
    rw [shape] at opens
    rcases opens with none | opened
    · cases none
    · cases opened
  rcases List.append_eq_append_iff.1 whole with ⟨more, rfl, tail⟩ | ⟨cut, rfl, ends⟩
  · rcases List.append_eq_append_iff.1 tail with ⟨beyond, rfl, rfl⟩ | ⟨inner, here, ends⟩
    · -- What follows begins with an opening tag, so the content goes on at least up to its name.
      rcases opens with none | opened
      · simp [shape] at none
      · obtain ⟨c, rest, equal, letter⟩ := Source.exists_of_opensTag opened
        rw [shape] at equal
        match beyond, equal with
        | [], _ => exact absurd rfl other
        | [d], equal =>
            cases equal
            cases letter
        | d :: e :: beyond, equal =>
            cases equal
            exact .inr ⟨c, beyond, letter, rfl⟩
    · cases more with
      | nil => exact .inl ⟨[], by simp, tail.symm, by simp⟩
      | cons d more =>
          cases inner with
          | nil => exact absurd ends.symm other
          | cons e inner =>
              have second : '<' ∈ "</template>".toList.tail := by
                rw [here, (List.cons.inj (shape.symm.trans ends)).1]
                simp
              exact absurd second (by decide)
  · refine .inl ⟨cut, rfl, ends, ?_⟩
    intro c head
    cases cut with
    | nil => cases head
    | cons d cut =>
        cases head
        rw [shape] at ends
        exact (List.cons.inj ends).1.symm

/-- A printable forest is read from the content that is found for its text exactly when the
rest of the text is closing tags and what follows the template. -/
theorem read_content_iff {body rest : List Char} (printable : Markup.Forest.Printable forest)
    (opens : later = [] ∨ Source.opensTag later = true)
    (whole : Markup.Token.writtenAll (Markup.Forest.tokens forest) ++
      ("</template>".toList ++ later) = body ++ ending)
    (closes : closing? templateTag ending = some rest) :
    Markup.Forest.read (String.ofList body) = forest ↔
      ∃ left, LeavesClosings forest left ∧ ending = left ++ later := by
  constructor
  · intro read
    rcases content_cases opens whole closes with ⟨cut, parts, ends, marked⟩ |
      ⟨c, more, letter, beyond⟩
    · obtain ⟨front, back, tokens, closing, rfl⟩ :=
        (printable.read_eq_iff_of_append parts marked).1 read
      exact ⟨_, ⟨front, back, tokens, closing, rfl⟩, by rw [ends, List.append_assoc]⟩
    · have named : Markup.IsTagName "template" := by decide
      rw [beyond] at read
      exact absurd read (printable.read_append_ne named letter more)
  · rintro ⟨left, ⟨front, back, parts, closing, rfl⟩, rfl⟩
    have same : Markup.Token.writtenAll front = body := by
      rw [parts, Markup.Token.writtenAll_append, List.append_assoc, List.append_assoc] at whole
      exact List.append_cancel_right whole
    rw [← same, printable.read_of_closings parts closing]

end

end Document

end SingleFile
