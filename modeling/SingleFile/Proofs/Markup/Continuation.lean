import SingleFile.Proofs.Markup.Truncation

/-!
# Texts that go on

A text that goes on with an opening tag behind a printed forest does not give the forest,
since more `<` are read from it. This is plain as long as the tokens of the forest are read
first. But a text in the forest may hold two open braces that are closed only in what
follows; then everything in between becomes part of one interpolation, tags included. An
interpolation keeps every `<`, so that counting them covers this case too.

Main statement: `Forest.Printable.read_append_ne`.
-/

namespace SingleFile.Markup

open SingleFile.Text

namespace Token

/-- A mark that is found where a `<` follows the text is a mark of the text. -/
theorem exists_of_after?_append {mark text rest more : List Char} (absent : '<' ∉ mark.tail)
    (proper : text ≠ []) (found : after? mark (text ++ '<' :: more) = some rest) :
    ∃ tail, text = mark ++ tail ∧ rest = tail ++ '<' :: more := by
  have whole := after?_eq_some_iff.1 found
  obtain ⟨tail, rfl⟩ := prefix_of_prefix_append absent proper ⟨rest, whole.symm⟩
  rw [List.append_assoc] at whole
  exact ⟨tail, rfl, (List.append_cancel_left whole).symm⟩

/-- The only markup that begins in a text because of what follows a `<` behind it is an
interpolation that is closed there. -/
theorem exists_braces {text more : List Char} (proper : text ≠ [])
    (unmarked : startsMarkup text = false) (begins : startsMarkup (text ++ '<' :: more) = true) :
    ∃ body, text = openBraces ++ body ∧ ¬ closeBraces <:+: body ∧
      closeBraces <:+: body ++ '<' :: more := by
  simp only [startsMarkup_eq, Bool.or_eq_true, Bool.or_eq_false_iff] at begins unmarked
  obtain ⟨⟨⟨noComment, noClosing⟩, noOpening⟩, noBraces⟩ := unmarked
  have tag (mark : List Char) (absent : '<' ∉ mark.tail)
      (found : (after? mark (text ++ '<' :: more)).any (·.head?.any Char.isAlpha) = true) :
      (after? mark text).any (·.head?.any Char.isAlpha) = true := by
    obtain ⟨rest, found, letter⟩ := (Option.any_eq_true _ _).1 found
    obtain ⟨tail, rfl, rfl⟩ := exists_of_after?_append absent proper found
    rw [after?_append]
    cases tail with
    | nil => cases letter
    | cons c tail => exact letter
  rcases begins with ((comment | closing) | opening) | braces
  · obtain ⟨rest, found⟩ := Option.isSome_iff_exists.1 comment
    obtain ⟨tail, rfl, -⟩ := exists_of_after?_append (by decide) proper found
    rw [after?_append] at noComment
    cases noComment
  · cases (tag _ (by decide) closing).symm.trans noClosing
  · cases (tag _ (by decide) opening).symm.trans noOpening
  · obtain ⟨rest, found, cut⟩ := (Option.any_eq_true _ _).1 braces
    obtain ⟨body, rfl, rfl⟩ := exists_of_after?_append (by decide) proper found
    rw [after?_append, Option.any_some, Option.isSome_eq_false_iff, Option.isNone_iff_eq_none,
      cut?_eq_none_iff] at noBraces
    rw [Option.isSome_iff_ne_none, ne_eq, cut?_eq_none_iff, Decidable.not_not] at cut
    exact ⟨body, rfl, noBraces, cut⟩

theorem closeTag?_append_eq_none {text more : List Char} (proper : text ≠ [])
    (unclosed : closeTag? text = none) : closeTag? (text ++ '<' :: more) = none := by
  match text, proper, unclosed with
  | [c], _, _ => exact closeTag?_eq_none (by simp)
  | c :: d :: text, _, unclosed =>
      by_cases bracket : c = '<'
      · by_cases slash : d = '/'
        · subst bracket slash
          cases text with
          | nil => rfl
          | cons e text =>
              cases named : isTagChar e with
              | true => simp [closeTag?, named] at unclosed
              | false => simp [closeTag?, named]
        · exact closeTag?_eq_none (by simpa using slash)
      · exact closeTag?_cons bracket _

/-- Where markup begins in a run of text, it begins somewhere first. -/
theorem exists_marked {run following : List Char} (marked : ¬ Unmarked following run) :
    ∃ front back, run = front ++ back ∧ back ≠ [] ∧ Unmarked (back ++ following) front ∧
      startsMarkup (back ++ following) = true := by
  induction run with
  | nil => exact absurd trivial marked
  | cons c run ih =>
      cases begins : startsMarkup (c :: (run ++ following)) with
      | true => exact ⟨[], c :: run, rfl, by simp, trivial, begins⟩
      | false =>
          have later : ¬ Unmarked following run := fun unmarked => marked ⟨begins, unmarked⟩
          obtain ⟨front, back, rfl, proper, unmarked, found⟩ := ih later
          rw [List.append_assoc] at begins
          exact ⟨c :: front, back, rfl, proper, ⟨begins, unmarked⟩, found⟩

theorem startsMarkup_of_unmarked {front back following : List Char} (proper : back ≠ [])
    (unmarked : Unmarked following (front ++ back)) : startsMarkup (back ++ following) = false := by
  induction front with
  | nil =>
      cases back with
      | nil => exact absurd rfl proper
      | cons c back => exact unmarked.1
  | cons c front ih => exact ih unmarked.2

/-- Braces that close only behind a `<` leave it between them and those that open. -/
theorem exists_of_cut?_append {body more content rest : List Char}
    (absent : ¬ closeBraces <:+: body)
    (cut : cut? closeBraces (body ++ '<' :: more) = some (content, rest)) :
    ∃ inner, content = body ++ '<' :: inner := by
  have whole := eq_append_of_cut? cut
  rw [List.append_assoc] at whole
  rcases List.append_eq_append_iff.1 whole with ⟨later, rfl, tail⟩ | ⟨later, rfl, tail⟩
  · cases later with
    | nil => cases tail
    | cons c later =>
        cases tail
        exact ⟨later, rfl⟩
  · match later, tail with
    | [], tail => cases tail
    | [c], tail => cases tail
    | c :: d :: later, tail =>
        cases tail
        exact absurd ⟨content, later, by simp [closeBraces]⟩ absent

theorem count_trim (text : List Char) : (trim text).count '<' = text.count '<' := by
  have dropped (text : List Char) : (text.dropWhile isBlank).count '<' = text.count '<' := by
    have parts := count_takeWhile_add_dropWhile isBlank text
    have blank : (text.takeWhile isBlank).count '<' = 0 := by
      rw [List.count_eq_zero]
      intro member
      exact absurd (holds_of_mem_takeWhile member) (by decide)
    omega
  simp [trim, dropped]

/-- An interpolation that is closed only behind a `<` holds this `<` and those before it. -/
theorem count_lt_tallyAll_scan_braces {body more : List Char} (absent : ¬ closeBraces <:+: body)
    (present : closeBraces <:+: body ++ '<' :: more) :
    body.count '<' < tallyAll (· == '<') (scan (openBraces ++ (body ++ '<' :: more))) := by
  obtain ⟨⟨content, rest⟩, cut⟩ : ∃ parts, cut? closeBraces (body ++ '<' :: more) = some parts := by
    rw [← Option.isSome_iff_exists, Option.isSome_iff_ne_none, ne_eq, cut?_eq_none_iff]
    exact absurd present
  obtain ⟨inner, rfl⟩ := exists_of_cut?_append absent cut
  have read : interpolation? (openBraces ++ (body ++ '<' :: more)) =
      some (.interpolation (String.ofList (trim (body ++ '<' :: inner))), rest) := by
    rw [interpolation?, after?_append]
    simp [cut]
  have held : (Token.interpolation (String.ofList (trim (body ++ '<' :: inner)))).tally (· == '<') =
      (body ++ '<' :: inner).count '<' := by
    rw [← count_trim (body ++ '<' :: inner)]
    simp [tally, written, openBraces, closeBraces, List.count]
  rw [scan_of_markup? (markup?_of_interpolation? read), tallyAll_cons, held]
  simp only [List.count_append, List.count_cons_self]
  omega

theorem tallyAll_scan_of_stands {run following : List Char} (stands : Stands run following)
    (begins : startsMarkup following = true) :
    tallyAll (· == '<') (scan (run ++ following)) =
      run.count '<' + tallyAll (· == '<') (scan following) := by
  by_cases empty : run = []
  · simp [empty]
  · have scanned := scan_of_stands empty stands
    rw [textRun_eq_nil (.inr begins), List.append_nil] at scanned
    rw [scanned]
    simp [tally, written, List.count]

/-- A text that stands before other text, but no more where a `<` follows, begins an
interpolation, and everything up to the `<` is inside of it. -/
theorem count_lt_tallyAll_scan {content following more : List Char} (proper : content ≠ [])
    (stands : Stands content following) (unplaced : ¬ Stands content (following ++ '<' :: more)) :
    content.count '<' + following.count '<' <
      tallyAll (· == '<') (scan (content ++ (following ++ '<' :: more))) := by
  have unclosed : closeTag? (content ++ (following ++ '<' :: more)) = none := by
    rw [← List.append_assoc]
    exact closeTag?_append_eq_none (by simp [proper]) stands.1
  obtain ⟨run, tail, rfl, rest, unmarked, begins⟩ :=
    exists_marked fun unmarked => unplaced ⟨unclosed, unmarked⟩
  rw [List.append_assoc] at unclosed ⊢
  rw [tallyAll_scan_of_stands ⟨unclosed, unmarked⟩ begins]
  rw [← List.append_assoc] at begins ⊢
  obtain ⟨body, shape, absent, present⟩ :=
    exists_braces (by simp [rest]) (startsMarkup_of_unmarked rest stands.2) begins
  have inside : (tail ++ following).count '<' = body.count '<' := by
    rw [shape]
    simp [openBraces]
  have held := count_lt_tallyAll_scan_braces absent present
  rw [shape, List.append_assoc]
  rw [List.count_append] at inside ⊢
  omega

/-- Where an opening tag stands somewhere behind printed tokens, more is read than these
tokens. -/
theorem tallyAll_lt_tallyAll_scan {tokens : List Token} {more : List Char}
    (wellFormed : ∀ token ∈ tokens, token.WellFormed)
    (quoteFree : ∀ token ∈ tokens, token.QuoteFree) (apart : Apart tokens)
    (legible : Legible tokens) (begins : startsMarkup ('<' :: more) = true)
    (counts : 0 < tallyAll (· == '<') (scan ('<' :: more))) :
    tallyAll (· == '<') tokens < tallyAll (· == '<') (scan (writtenAll tokens ++ '<' :: more)) := by
  induction tokens with
  | nil => exact counts
  | cons token tokens ih =>
      obtain ⟨here, othersOk⟩ := List.forall_mem_cons.1 wellFormed
      obtain ⟨hereFree, othersFree⟩ := List.forall_mem_cons.1 quoteFree
      have later := ih othersOk othersFree apart.2 legible.2
      rw [writtenAll_cons, List.append_assoc, tallyAll_cons]
      by_cases placed : token.Placed (writtenAll tokens ++ '<' :: more)
      · have ends : token.isText = true →
            startsMarkup (writtenAll tokens ++ '<' :: more) = true := by
          intro isText
          by_cases last : tokens = []
          · simpa [last] using begins
          · exact startsMarkup_writtenAll othersOk apart isText last _
        rw [scan_written here hereFree placed (fun isText => .inr (ends isText)), tallyAll_cons]
        omega
      · cases token with
        | text content =>
            have proper : content.toList ≠ [] := by
              have nonempty : content ≠ "" := here
              simpa using nonempty
            have swallowed := count_lt_tallyAll_scan proper legible.1 placed
            have bound := tallyAll_le_count tokens
            have whole : (Token.text content).tally (· == '<') = content.toList.count '<' := rfl
            rw [written]
            omega
        | _ => exact absurd legible.1 placed

end Token

open Token

/-- A text that goes on behind a printable forest with a closing tag and an opening tag does
not give the forest. -/
theorem Forest.Printable.read_append_ne {forest : List Node} (printable : Printable forest)
    {tag : String} (named : IsTagName tag) {c : Char} (letter : c.isAlpha = true)
    (more : List Char) :
    Forest.read (String.ofList (writtenAll (tokens forest) ++
      ((Token.closeTag tag).written ++ '<' :: c :: more))) ≠ forest := by
  have wellFormed : (Token.closeTag tag).WellFormed := named
  have begins := startsMarkup_written (.closeTag tag) wellFormed rfl ('<' :: c :: more)
  obtain ⟨name, props, selfClosing, rest, opened⟩ : ∃ name props selfClosing rest,
      openTag? ('<' :: c :: more) = some (.openTag name props selfClosing, rest) := by
    simp [openTag?, letter]
  have counts : 0 < tallyAll (· == '<')
      (scan ((Token.closeTag tag).written ++ '<' :: c :: more)) := by
    rw [scan_written wellFormed trivial trivial (by simp [Token.isText]),
      scan_of_markup? (markup?_of_openTag? opened), tallyAll_cons, tallyAll_cons]
    have opening : 0 < (Token.openTag name props selfClosing).tally (· == '<') :=
      List.countP_pos_iff.2 ⟨'<', by simp [written], rfl⟩
    omega
  intro read
  have longer := tallyAll_lt_tallyAll_scan printable.wellFormed printable.quoteFree printable.apart
    printable.legible begins counts
  have kept := @tally_ofTokens (· == '<')
    (scan (writtenAll (tokens forest) ++ ((Token.closeTag tag).written ++ '<' :: c :: more)))
  rw [Forest.read, String.toList_ofList] at read
  rw [read, tally] at kept
  exact Nat.lt_irrefl _ (kept ▸ longer)

end SingleFile.Markup
