import SingleFile.Block.Body
import SingleFile.Proofs.Block.Tag

/-!
# Balanced content

The content of a template is found whole when it is balanced: when it is made of
comments, of complete nested templates, and of characters at which neither of
these nor the closing tag begins. `Balanced` says so of a text in front of
another one, as a mark may begin in one and end in the other.

A text is `Inert` when it has no beginning of a mark at all, also not one that is
cut off. Such texts are balanced in front of every character that continues no
mark.

Main statement: `Balanced.bodyEnd_append`, the end of content is searched past
balanced text. In front of a tag, whether a text is balanced does not depend on the
tag (`Balanced.of_head?`).
-/

namespace SingleFile.Block

open SingleFile.Text

/-! ## Nested opening tags -/

/-- Text between the name and the end of a nested opening tag: quoted strings, and
characters that are neither quotes nor `>`. -/
inductive TagText : List Char → Prop where
  | nil : TagText []
  | char {c : Char} {text : List Char} :
      c ≠ '"' → c ≠ '\'' → c ≠ '>' → TagText text → TagText (c :: text)
  | quoted {quote : Char} {inner text : List Char} :
      quote = '"' ∨ quote = '\'' → quote ∉ inner → TagText text →
      TagText (quote :: (inner ++ quote :: text))

theorem TagText.append {front back : List Char} (frontOk : TagText front)
    (backOk : TagText back) : TagText (front ++ back) := by
  induction frontOk with
  | nil => exact backOk
  | char double single unclosing _ ih => exact .char double single unclosing ih
  | quoted isQuote absent _ ih => simpa using TagText.quoted isQuote absent ih

theorem tagText_of_plain {text : List Char}
    (plain : ∀ c ∈ text, c ≠ '"' ∧ c ≠ '\'' ∧ c ≠ '>') : TagText text := by
  induction text with
  | nil => exact .nil
  | cons c text ih =>
      rcases List.forall_mem_cons.1 plain with ⟨⟨double, single, unclosing⟩, later⟩
      exact .char double single unclosing (ih later)

theorem TagText.head?_ne {text : List Char} (tagText : TagText text) :
    text.head? ≠ some '>' := by
  cases tagText with
  | nil => simp
  | char _ _ unclosing _ => simpa using unclosing
  | quoted isQuote _ _ => rcases isQuote with rfl | rfl <;> simp

theorem nestedTagEnd?_cons {c : Char} {rest : List Char} (unclosing : c ≠ '>')
    (goesOn : c = '/' → rest.head? ≠ some '>') :
    nestedTagEnd? (c :: rest) = nestedTagEnd? (skipQuoted c rest) := by
  rw [nestedTagEnd?]
  · rintro tail rfl rfl
    simp at goesOn
  · exact unclosing

/-- The end of a nested opening tag is searched past its text. -/
theorem TagText.nestedTagEnd?_append {text ending : List Char} (tagText : TagText text)
    (goesOn : text.getLast? = some '/' → ending.head? ≠ some '>') :
    nestedTagEnd? (text ++ ending) = nestedTagEnd? ending := by
  induction tagText with
  | nil => rfl
  | @char c text double single unclosing tagText ih =>
      have unquoted : skipQuoted c (text ++ ending) = text ++ ending := by
        simp [skipQuoted, double, single]
      rw [List.cons_append, nestedTagEnd?_cons unclosing, unquoted]
      · cases text with
        | nil => rfl
        | cons d text => exact ih goesOn
      · rintro rfl
        cases text with
        | nil => exact goesOn rfl
        | cons d text => exact tagText.head?_ne
  | @quoted quote inner text isQuote absent tagText ih =>
      have skipped : skipQuoted quote (inner ++ quote :: (text ++ ending)) = text ++ ending := by
        simp [skipQuoted, isQuote, cut?_singleton_append absent]
      rw [List.cons_append, List.append_assoc, List.cons_append, nestedTagEnd?_cons, skipped]
      · cases text with
        | nil => rfl
        | cons d text =>
            have last : (quote :: (inner ++ quote :: d :: text)).getLast? =
                (d :: text).getLast? := by
              simp [List.getLast?_cons, List.getLast?_append]
            exact ih (last ▸ goesOn)
      · rcases isQuote with rfl | rfl <;> decide
      · rcases isQuote with rfl | rfl <;> simp

/-! ## Balanced text -/

/-- A comment, a nested template or a closing tag begins at the start of the text. -/
def startsMark (text : List Char) : Bool :=
  (after? "<!--".toList text).isSome || (templateStart? text).isSome ||
    (closing? templateTag text).isSome

/-- Text in front of `following` that is made of comments, nested templates and
characters at which no mark begins. -/
inductive Balanced : (body following : List Char) → Prop where
  | nil (following : List Char) : Balanced [] following
  | char {c : Char} {body following : List Char} :
      startsMark (c :: (body ++ following)) = false → Balanced body following →
      Balanced (c :: body) following
  | comment {content body following : List Char} :
      ¬ "-->".toList <:+: content → Balanced body following →
      Balanced ("<!--".toList ++ (content ++ ("-->".toList ++ body))) following
  | selfClosing {tail body following : List Char} :
      TagText tail → (∀ c ∈ tail.head?, isTagChar c = false) → Balanced body following →
      Balanced ("<template".toList ++ (tail ++ '/' :: '>' :: body)) following
  | nested {tail inner blanks body following : List Char} :
      TagText tail → (∀ c ∈ tail.head?, isTagChar c = false) → tail.getLast? ≠ some '/' →
      (∀ c ∈ blanks, isBlockBlank c = true) →
      Balanced inner ("</template".toList ++ (blanks ++ '>' :: (body ++ following))) →
      Balanced body following →
      Balanced ("<template".toList ++ (tail ++ '>' :: (inner ++
        ("</template".toList ++ (blanks ++ '>' :: body))))) following

theorem Balanced.append {front back following : List Char}
    (frontOk : Balanced front (back ++ following)) (backOk : Balanced back following) :
    Balanced (front ++ back) following := by
  generalize equal : back ++ following = rest at frontOk
  induction frontOk with
  | nil => exact backOk
  | char unmarked _ ih =>
      subst equal
      rw [← List.append_assoc] at unmarked
      exact .char unmarked (ih rfl)
  | comment absent _ ih =>
      subst equal
      simpa using Balanced.comment absent (ih rfl)
  | selfClosing tagText ends _ ih =>
      subst equal
      simpa using Balanced.selfClosing tagText ends (ih rfl)
  | nested tagText ends unslashed blank inner _ _ ih =>
      subst equal
      rw [← List.append_assoc _ back] at inner
      simpa using Balanced.nested tagText ends unslashed blank inner (ih rfl)

theorem endOfName?_eq_some {text : List Char} (ends : ∀ c ∈ text.head?, isTagChar c = false) :
    endOfName? text = some text := by
  cases text with
  | nil => rfl
  | cons c text => simp [endOfName?, ends c rfl]

/-- A nested opening tag ends where its text does. -/
theorem nestedTag?_append {tail rest : List Char} {c : Char}
    (ends : ∀ d ∈ tail.head?, isTagChar d = false) (stops : isTagChar c = false) :
    nestedTag? ("<template".toList ++ (tail ++ c :: rest)) =
      nestedTagEnd? (tail ++ c :: rest) := by
  have named : ∀ d ∈ (tail ++ c :: rest).head?, isTagChar d = false := by
    cases tail with
    | nil => simpa using stops
    | cons d tail => exact ends
  rw [nestedTag?, templateStart?, after?_append, Option.bind_some, endOfName?_eq_some named,
    Option.bind_some]

theorem comment?_eq_none {text : List Char} (unmarked : after? "<!--".toList text = none) :
    comment? text = none := by
  rw [comment?, unmarked]
  rfl

theorem nested?_eq_none {text : List Char} (unmarked : templateStart? text = none) :
    nested? text = none := by
  rw [nested?_eq, nestedTag?, unmarked]
  rfl

theorem bodyEnd_cons {c : Char} {rest : List Char} (unmarked : startsMark (c :: rest) = false) :
    bodyEnd (c :: rest) = bodyEnd rest := by
  simp only [startsMark, Bool.or_eq_false_iff, Option.isSome_eq_false_iff,
    Option.isNone_iff_eq_none] at unmarked
  rcases unmarked with ⟨⟨noComment, noTemplate⟩, noClosing⟩
  rw [bodyEnd_eq, comment?_eq_none noComment, nested?_eq_none noTemplate, noClosing]
  rfl

theorem bodyEnd_of_nested? {text rest : List Char} (nested : nested? text = some rest)
    (uncommented : after? "<!--".toList text = none) : bodyEnd text = bodyEnd rest := by
  rw [bodyEnd_eq, comment?_eq_none uncommented, nested]

/-- The search ends at a closing tag. -/
theorem bodyEnd_of_closing? {text rest : List Char}
    (closes : closing? templateTag text = some rest) : bodyEnd text = text := by
  have begins : after? "<!--".toList text = none ∧ templateStart? text = none := by
    rcases closing?_eq_some_iff.1 closes with ⟨blanks, -, rfl⟩
    exact ⟨rfl, rfl⟩
  rw [bodyEnd_eq, comment?_eq_none begins.1, nested?_eq_none begins.2, closes]
  rfl

theorem closing?_append {blanks : List Char} (every : ∀ c ∈ blanks, isBlockBlank c = true)
    (rest : List Char) :
    closing? templateTag ("</template".toList ++ (blanks ++ '>' :: rest)) = some rest :=
  closing?_eq_some_iff.2 ⟨blanks, every, rfl⟩

/-- The end of the content is searched past balanced text. -/
theorem Balanced.bodyEnd_append {body following : List Char}
    (balanced : Balanced body following) : bodyEnd (body ++ following) = bodyEnd following := by
  induction balanced with
  | nil => rfl
  | char unmarked _ ih => rw [List.cons_append, bodyEnd_cons unmarked, ih]
  | @comment content body following absent _ ih =>
      have comment : comment? ("<!--".toList ++ (content ++ ("-->".toList ++
          (body ++ following)))) = some (body ++ following) := by
        rw [comment?, after?_append, Option.bind_some, cut?_commentEnd absent]
        rfl
      rw [bodyEnd_eq]
      simp only [List.append_assoc, comment, ih]
  | @selfClosing tail body following tagText ends _ ih =>
      have tag : nestedTag? ("<template".toList ++ (tail ++ '/' :: '>' :: (body ++ following))) =
          some (true, body ++ following) := by
        rw [nestedTag?_append ends rfl, tagText.nestedTagEnd?_append (by simp), nestedTagEnd?]
      have passed : nested? ("<template".toList ++ (tail ++ '/' :: '>' :: (body ++ following))) =
          some (body ++ following) := by
        rw [nested?_eq, tag]
      simp only [List.append_assoc, List.cons_append]
      rw [bodyEnd_of_nested? passed rfl, ih]
  | @nested tail inner blanks body following tagText ends unslashed blank _ _ innerIH ih =>
      have closes := closing?_append blank (body ++ following)
      generalize closed : "</template".toList ++ (blanks ++ '>' :: (body ++ following)) = rest
        at closes innerIH
      have tag : nestedTag? ("<template".toList ++ (tail ++ '>' :: (inner ++ rest))) =
          some (false, inner ++ rest) := by
        rw [nestedTag?_append ends rfl,
          tagText.nestedTagEnd?_append (fun last => absurd last unslashed), nestedTagEnd?]
      have passed : nested? ("<template".toList ++ (tail ++ '>' :: (inner ++ rest))) =
          some (body ++ following) := by
        simp only [nested?_eq, tag, innerIH, bodyEnd_of_closing? closes, closes]
      simp only [List.append_assoc, List.cons_append, closed]
      rw [bodyEnd_of_nested? passed rfl, ih]

/-! ## Inert text -/

/-- The mark stands at the start of the text, and the name in which it ends goes no
further. -/
def opensName (mark text : List Char) : Bool :=
  ((after? mark text).bind endOfName?).isSome

/-- A mark begins at the start of the text, or begins there as far as the text goes. -/
def opensMark (text : List Char) : Bool :=
  (after? "<!--".toList text).isSome || opensName "<template".toList text ||
    opensName "</template".toList text

/-- No mark begins in the text. -/
def Inert : List Char → Prop
  | [] => True
  | c :: text => opensMark (c :: text) = false ∧ Inert text

instance : (text : List Char) → Decidable (Inert text)
  | [] => isTrue trivial
  | c :: text =>
    have : Decidable (Inert text) := instDecidableInert text
    inferInstanceAs (Decidable (opensMark (c :: text) = false ∧ Inert text))

/-- Characters that stand in no mark but at its beginning. -/
def endsMark (c : Char) : Bool := !(isTagChar c || c = '!' || c = '/')

/-- A mark that is found in front of a character which it does not hold ends before it. -/
theorem exists_of_after?_append {mark text rest found : List Char} {c : Char}
    (absent : c ∉ mark.tail) (proper : text ≠ [])
    (begins : after? mark (text ++ c :: rest) = some found) :
    ∃ inside, after? mark text = some inside ∧ found = inside ++ c :: rest := by
  have parts := after?_eq_some_iff.1 begins
  rcases prefix_of_prefix_append absent proper ⟨found, parts.symm⟩ with ⟨inside, rfl⟩
  refine ⟨inside, after?_append mark inside, ?_⟩
  rw [List.append_assoc, List.append_cancel_left_eq] at parts
  exact parts.symm

theorem opensName_append {mark text rest : List Char} (proper : text ≠ [])
    (unopened : opensName mark text = false) (absent : ∀ c ∈ rest.head?, c ∉ mark.tail) :
    opensName mark (text ++ rest) = false := by
  rw [opensName] at unopened ⊢
  cases rest with
  | nil => rwa [List.append_nil]
  | cons c rest =>
      cases begins : after? mark (text ++ c :: rest) with
      | none => rfl
      | some found =>
          rcases exists_of_after?_append (absent c rfl) proper begins with ⟨inside, within, rfl⟩
          rw [within] at unopened
          cases inside with
          | nil => simp [endOfName?] at unopened
          | cons d inside => simpa [endOfName?] using unopened

theorem opensMark_append {text rest : List Char} (proper : text ≠ [])
    (unopened : opensMark text = false) (ends : ∀ c ∈ rest.head?, endsMark c = true) :
    opensMark (text ++ rest) = false := by
  have absent {mark : List Char} (inside : ∀ d ∈ mark.tail, endsMark d = false) :
      ∀ c ∈ rest.head?, c ∉ mark.tail := by
    intro c head member
    have outside := ends c head
    rw [inside c member] at outside
    cases outside
  simp only [opensMark, Bool.or_eq_false_iff] at unopened ⊢
  rcases unopened with ⟨⟨noComment, noOpening⟩, noClosing⟩
  refine ⟨⟨?_, opensName_append proper noOpening (absent (by decide))⟩,
    opensName_append proper noClosing (absent (by decide))⟩
  cases rest with
  | nil => rwa [List.append_nil]
  | cons c rest =>
      cases begins : after? "<!--".toList (text ++ c :: rest) with
      | none => rfl
      | some found =>
          have apart : c ∉ "<!--".toList.tail := absent (by decide) c rfl
          rcases exists_of_after?_append apart proper begins with ⟨inside, within, -⟩
          rw [within] at noComment
          exact noComment

theorem prefix_of_opensName {mark text : List Char} (opened : opensName mark text = true) :
    mark <+: text := by
  rw [← isSome_after?_iff]
  cases begins : after? mark text with
  | none => simp [opensName, begins] at opened
  | some rest => rfl

theorem opensName_eq_false {mark text : List Char} (absent : after? mark text = none) :
    opensName mark text = false := by
  rw [opensName, absent]
  rfl

/-- At the start of an opening tag only a template's tag is a mark. -/
theorem opensMark_openTag {c : Char} (text : List Char) (letter : c.isAlpha = true) :
    opensMark ('<' :: c :: text) = opensName "template".toList (c :: text) := by
  have unmarked : c ≠ '!' := by
    rintro rfl
    exact absurd letter (by decide)
  have unslashed : c ≠ '/' := by
    rintro rfl
    exact absurd letter (by decide)
  have noComment : after? "<!--".toList ('<' :: c :: text) = none := if_neg (Ne.symm unmarked)
  have opening : opensName "<template".toList ('<' :: c :: text) =
      opensName "template".toList (c :: text) := rfl
  have noClosing : opensName "</template".toList ('<' :: c :: text) = false :=
    opensName_eq_false (if_neg (Ne.symm unslashed))
  rw [opensMark, noComment, opening, noClosing, Bool.or_false]
  rfl

/-- At the start of a closing tag only a template's tag is a mark. -/
theorem opensMark_closeTag (text : List Char) :
    opensMark ('<' :: '/' :: text) = opensName "template".toList text := by
  have noComment : after? "<!--".toList ('<' :: '/' :: text) = none := rfl
  have noOpening : opensName "<template".toList ('<' :: '/' :: text) = false := rfl
  rw [opensMark, noComment, noOpening]
  rfl

theorem opensMark_cons {c : Char} (other : c ≠ '<') (text : List Char) :
    opensMark (c :: text) = false := by
  have absent (mark : List Char) : after? ('<' :: mark) (c :: text) = none :=
    if_neg (Ne.symm other)
  have noComment : after? "<!--".toList (c :: text) = none := absent _
  have noOpening : opensName "<template".toList (c :: text) = false :=
    opensName_eq_false (absent _)
  have noClosing : opensName "</template".toList (c :: text) = false :=
    opensName_eq_false (absent _)
  rw [opensMark, noComment, noOpening, noClosing]
  rfl

/-- Where no mark begins, none is found. -/
theorem startsMark_of_opensMark {text : List Char} (unopened : opensMark text = false) :
    startsMark text = false := by
  simp only [opensMark, Bool.or_eq_false_iff] at unopened
  simp only [startsMark, Bool.or_eq_false_iff]
  refine ⟨unopened.1, ?_⟩
  cases closes : closing? templateTag text with
  | none => rfl
  | some rest =>
      rcases closing?_eq_some_iff.1 closes with ⟨blanks, every, rfl⟩
      have named : ∀ c ∈ (blanks ++ '>' :: rest).head?, isTagChar c = false := by
        cases blanks with
        | nil => exact forall_head?_cons (by decide) rest
        | cons c blanks =>
            apply forall_head?_cons
            have blank := every c (by simp)
            simp only [isBlockBlank, Bool.or_eq_true, decide_eq_true_eq] at blank
            rcases blank with ((rfl | rfl) | rfl) | rfl <;> rfl
      have unclosed := unopened.2
      change opensName "</template".toList ("</template".toList ++ (blanks ++ '>' :: rest)) = false
        at unclosed
      rw [opensName, after?_append, Option.bind_some, endOfName?_eq_some named] at unclosed
      cases unclosed

theorem inert_cons {c : Char} (other : c ≠ '<') {text : List Char} (inert : Inert text) :
    Inert (c :: text) :=
  ⟨opensMark_cons other text, inert⟩

theorem inert_of_not_mem {text : List Char} (absent : '<' ∉ text) : Inert text := by
  induction text with
  | nil => trivial
  | cons c text ih =>
      rw [List.mem_cons, not_or] at absent
      exact inert_cons (Ne.symm absent.1) (ih absent.2)

/-- Inert texts stay inert one after the other, when the second does not begin with a
character that continues a mark. -/
theorem Inert.append {front back : List Char} (frontOk : Inert front) (backOk : Inert back)
    (ends : ∀ c ∈ back.head?, endsMark c = true) : Inert (front ++ back) := by
  induction front with
  | nil => exact backOk
  | cons c front ih =>
      refine ⟨?_, ih frontOk.2⟩
      change opensMark ((c :: front) ++ back) = false
      exact opensMark_append (by simp) frontOk.1 ends

/-- Inert text is balanced in front of text that does not continue a mark. -/
theorem Inert.balanced {text following : List Char} (inert : Inert text)
    (ends : ∀ c ∈ following.head?, endsMark c = true) : Balanced text following := by
  induction text with
  | nil => exact .nil _
  | cons c text ih =>
      refine .char ?_ (ih inert.2)
      rw [← List.cons_append]
      exact startsMark_of_opensMark (opensMark_append (by simp) inert.1 ends)

/-- Inert text before a character that continues no mark and begins none is balanced in
front of every text. -/
theorem Inert.balanced_concat {text : List Char} (inert : Inert text) {c : Char}
    (ends : endsMark c = true) (other : c ≠ '<') (following : List Char) :
    Balanced (text ++ [c]) following := by
  refine Balanced.append (inert.balanced (by simpa using ends)) (.char ?_ (.nil following))
  exact startsMark_of_opensMark (opensMark_cons other _)

/-! ## Balanced text in front of a tag -/

theorem opensName_of_append {mark front next other : List Char} (absent : '<' ∉ mark.tail)
    (proper : front ≠ []) (opened : opensName mark (front ++ '<' :: next) = true) :
    opensName mark (front ++ '<' :: other) = true := by
  rw [opensName] at opened ⊢
  cases begins : after? mark (front ++ '<' :: next) with
  | none => simp [begins] at opened
  | some found =>
      rcases exists_of_after?_append absent proper begins with ⟨inside, within, rfl⟩
      rw [begins, Option.bind_some] at opened
      rw [after?_eq_some_iff.1 within, List.append_assoc, after?_append, Option.bind_some]
      cases inside with
      | nil => rfl
      | cons c inside => simpa [endOfName?] using opened

/-- A mark that begins before a `<` does not reach beyond it. -/
theorem startsMark_of_append {front next other : List Char} (proper : front ≠ [])
    (marked : startsMark (front ++ '<' :: next) = true) :
    startsMark (front ++ '<' :: other) = true := by
  have kept {mark : List Char} (absent : '<' ∉ mark.tail) (begins : mark <+: front ++ '<' :: next) :
      mark <+: front ++ '<' :: other :=
    (prefix_of_prefix_append absent proper begins).trans (List.prefix_append _ _)
  simp only [startsMark, Bool.or_eq_true] at marked ⊢
  rcases marked with (comment | nested) | closes
  · rw [isSome_after?_iff] at comment ⊢
    exact .inl (.inl (kept (by decide) comment))
  · exact .inl (.inr (opensName_of_append (by decide) proper nested))
  · right
    rcases Option.isSome_iff_exists.1 closes with ⟨rest, closes⟩
    rcases closing?_eq_some_iff.1 closes with ⟨blanks, every, shape⟩
    have unblank : '<' ∉ blanks := fun member => absurd (every '<' member) (by decide)
    have begins : '<' :: '/' :: (templateTag ++ (blanks ++ ['>'])) <+: front ++ '<' :: next :=
      ⟨rest, by simp [shape]⟩
    have untagged : '<' ∉ templateTag := by decide
    rcases kept (by simp [untagged, unblank]) begins with ⟨after, shape⟩
    have found : closing? templateTag (front ++ '<' :: other) = some after :=
      closing?_eq_some_iff.2 ⟨blanks, every, by simp [← shape]⟩
    rw [found]
    rfl

/-- Whether a text is balanced in front of a tag does not depend on the tag. -/
theorem Balanced.of_head? {body following other : List Char} (balanced : Balanced body following)
    (head : following.head? = some '<') (otherHead : other.head? = some '<') :
    Balanced body other := by
  induction balanced generalizing other with
  | nil => exact .nil _
  | @char c body following unmarked _ ih =>
      refine .char ?_ (ih head otherHead)
      rcases List.head?_eq_some_iff.1 head with ⟨next, rfl⟩
      rcases List.head?_eq_some_iff.1 otherHead with ⟨tail, rfl⟩
      rw [Bool.eq_false_iff] at unmarked ⊢
      intro marked
      exact unmarked (startsMark_of_append (List.cons_ne_nil c body) marked)
  | comment absent _ ih => exact .comment absent (ih head otherHead)
  | selfClosing tagText ends _ ih => exact .selfClosing tagText ends (ih head otherHead)
  | nested tagText ends unslashed blank _ _ innerIH ih =>
      exact .nested tagText ends unslashed blank (innerIH rfl rfl) (ih head otherHead)

end SingleFile.Block
