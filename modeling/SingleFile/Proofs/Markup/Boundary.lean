import SingleFile.Proofs.Markup.Canonical
import SingleFile.Proofs.Markup.Preorder

/-!
# Text in front of a template

Where a run of text ends and where markup is recognised are two decisions, made by
`Token.startsMarkup` and `Token.markup?`. As long as they agree, text that is written in front
of a template becomes text in front of its forest and changes nothing else. They disagree at
a closing tag whose name does not begin with a letter: it is recognised, and dropped, at the
beginning of the template, but it does not end a run of text.

Taking in a token never looks at the roots that were read before, but for the latest of them,
which text continues. So whatever is in front of the roots stays there, from the first token to
the last.

Main statement: `Forest.read_append_plain`.
-/

namespace SingleFile.Markup

open SingleFile.Text

/-! ## The first of the siblings -/

/-- Text in front of some nodes leaves what comes after these nodes as it is. -/
theorem prependText_append (content : String) {nodes : List Node} (proper : nodes ≠ [])
    (back : List Node) :
    prependText content (nodes ++ back) = prependText content nodes ++ back := by
  cases nodes with
  | nil => exact absurd rfl proper
  | cons node nodes => cases node <;> rfl

/-- Siblings, latest first, with text in front of the earliest. -/
def underlay (content : String) (siblings : List Node) : List Node :=
  (prependText content siblings.reverse).reverse

theorem underlay_cons (content : String) (node : Node) {siblings : List Node}
    (proper : siblings ≠ []) :
    underlay content (node :: siblings) = node :: underlay content siblings := by
  have nonempty : siblings.reverse ≠ [] := by simpa using proper
  simp [underlay, prependText_append content nonempty]

/-- It makes no difference whether a sibling is added before or after the text in front. -/
theorem attach_underlay (content : String) (node : Node) (siblings : List Node) :
    attach node (underlay content siblings) = underlay content (attach node siblings) := by
  match siblings with
  | [] => cases node <;> rfl
  | [only] =>
      cases node <;> cases only <;> simp [attach, underlay, prependText, String.append_assoc]
  | latest :: next :: others =>
      rw [underlay_cons content latest (by simp)]
      cases node <;> cases latest <;> simp [attach, underlay_cons]

/-! ## Taking in tokens -/

namespace Cursor

/-- A cursor whose outermost level, that of the roots, is changed. -/
def onRoots (change : List Node → List Node) : Cursor → Cursor
  | ⟨siblings, []⟩ => ⟨change siblings, []⟩
  | ⟨siblings, element :: enclosing⟩ =>
    let around := onRoots change ⟨element.earlier, enclosing⟩
    ⟨siblings, { element with earlier := around.siblings } :: around.enclosing⟩
termination_by cursor => cursor.enclosing.length

variable {change : List Node → List Node}

/-- The open elements keep their tags. -/
theorem any_tag_onRoots (cursor : Cursor) (tag : String) :
    (cursor.onRoots change).enclosing.any (·.tag = tag) = cursor.enclosing.any (·.tag = tag) := by
  obtain ⟨siblings, enclosing⟩ := cursor
  induction enclosing generalizing siblings with
  | nil => rw [onRoots]
  | cons element enclosing ih =>
      rw [onRoots]
      simp only [List.any_cons, ih]

theorem descend_onRoots (cursor : Cursor) (tag : String) (props : List Property) :
    (cursor.onRoots change).descend tag props = (cursor.descend tag props).onRoots change := by
  rw [descend, descend, onRoots]

section

variable (keeps : ∀ node siblings, attach node (change siblings) = change (attach node siblings))

include keeps

theorem add_onRoots (cursor : Cursor) (node : Node) :
    (cursor.onRoots change).add node = (cursor.add node).onRoots change := by
  obtain ⟨siblings, enclosing⟩ := cursor
  cases enclosing with
  | nil => simp only [add, onRoots, keeps]
  | cons element enclosing => simp only [add, onRoots]

/-- Closing the innermost element adds it to the level around it. -/
theorem close_onRoots (siblings : List Node) (element : Enclosing) (enclosing : List Enclosing) :
    let around := onRoots change ⟨element.earlier, enclosing⟩
    (⟨({ element with earlier := around.siblings } : Enclosing).close siblings,
        around.enclosing⟩ : Cursor) =
      onRoots change ⟨element.close siblings, enclosing⟩ :=
  add_onRoots keeps ⟨element.earlier, enclosing⟩
    (.element element.tag element.props siblings.reverse false)

theorem closeThrough_onRoots (tag : String) (cursor : Cursor) :
    closeThrough tag (cursor.onRoots change).siblings (cursor.onRoots change).enclosing =
      (closeThrough tag cursor.siblings cursor.enclosing).onRoots change := by
  obtain ⟨siblings, enclosing⟩ := cursor
  induction enclosing generalizing siblings with
  | nil => simp only [onRoots, closeThrough]
  | cons element enclosing ih =>
      have closed := close_onRoots keeps siblings element enclosing
      have later := ih (element.close siblings)
      rw [← closed] at later
      rw [onRoots, closeThrough, closeThrough]
      split
      next => exact closed
      next => exact later

theorem ascend_onRoots (cursor : Cursor) (tag : String) :
    (cursor.onRoots change).ascend tag = (cursor.ascend tag).onRoots change := by
  rw [ascend, ascend, any_tag_onRoots]
  split
  next => exact closeThrough_onRoots keeps tag cursor
  next => rfl

/-- Taking in a token keeps a change of the roots. -/
theorem step_onRoots (cursor : Cursor) (token : Token) :
    (cursor.onRoots change).step token = (cursor.step token).onRoots change := by
  cases token with
  | closeTag tag => exact ascend_onRoots keeps cursor tag
  | openTag tag props selfClosing =>
      rw [step, step]
      split
      next => exact add_onRoots keeps cursor _
      next => exact descend_onRoots cursor tag props
  | comment content => exact add_onRoots keeps cursor _
  | interpolation content => exact add_onRoots keeps cursor _
  | text content => exact add_onRoots keeps cursor _

theorem foldl_step_onRoots (cursor : Cursor) (tokens : List Token) :
    tokens.foldl step (cursor.onRoots change) = (tokens.foldl step cursor).onRoots change :=
  List.foldl_hom (onRoots change) (step_onRoots keeps)

/-- Closing what is still open keeps a change of the roots. -/
theorem closeAll_onRoots (cursor : Cursor) :
    closeAll (cursor.onRoots change).siblings (cursor.onRoots change).enclosing =
      change (closeAll cursor.siblings cursor.enclosing) := by
  obtain ⟨siblings, enclosing⟩ := cursor
  induction enclosing generalizing siblings with
  | nil => simp only [onRoots, closeAll]
  | cons element enclosing ih =>
      have closed := close_onRoots keeps siblings element enclosing
      have later := ih (element.close siblings)
      rw [← closed] at later
      rw [onRoots, closeAll, closeAll]
      exact later

end

theorem finish_onRoots_underlay (content : String) (cursor : Cursor) :
    (cursor.onRoots (underlay content)).finish = prependText content cursor.finish := by
  rw [finish, closeAll_onRoots (attach_underlay content), underlay, List.reverse_reverse, finish]

end Cursor

/-- A text at the beginning is put in front of the forest of the other tokens. -/
theorem Forest.ofTokens_text_cons (content : String) (tokens : List Token) :
    ofTokens (.text content :: tokens) = prependText content (ofTokens tokens) := by
  have begun : Cursor.start.step (.text content) = Cursor.start.onRoots (underlay content) := by
    rw [Cursor.start, Cursor.onRoots]
    rfl
  calc ofTokens (.text content :: tokens)
      = (tokens.foldl Cursor.step (Cursor.start.onRoots (underlay content))).finish := by
        rw [ofTokens, List.foldl_cons, begun]
    _ = ((tokens.foldl Cursor.step Cursor.start).onRoots (underlay content)).finish := by
        rw [Cursor.foldl_step_onRoots (attach_underlay content)]
    _ = prependText content (ofTokens tokens) := Cursor.finish_onRoots_underlay content _

/-! ## Where the two decisions agree -/

namespace Token

/-- Whether a closing tag stands here whose name does not begin with a letter. -/
def closesUnlettered : List Char → Bool
  | '<' :: '/' :: c :: _ => isTagChar c && !c.isAlpha
  | _ => false

/-- Any other closing tag ends a run of text before it. -/
theorem closeTag?_eq_none_or {text : List Char} (lettered : closesUnlettered text = false) :
    closeTag? text = none ∨ startsMarkup text = true := by
  unfold closeTag?
  split
  next body =>
    cases body with
    | nil => exact .inl rfl
    | cons c body =>
        cases letter : c.isAlpha with
        | true => exact .inr (by simp [startsMarkup, letter])
        | false =>
            have other : isTagChar c = false := by
              simpa [closesUnlettered, letter] using lettered
            exact .inl (by simp [other])
  next => exact .inl rfl

theorem exists_of_closesUnlettered {body : List Char}
    (unlettered : closesUnlettered ('<' :: '/' :: body) = true) :
    ∃ c rest, body = c :: rest ∧ isTagChar c = true ∧ c.isAlpha = false := by
  cases body with
  | nil => cases unlettered
  | cons c rest => exact ⟨c, rest, rfl, by simpa [closesUnlettered] using unlettered⟩

theorem unmarked_append {front back following : List Char}
    (frontOk : Unmarked (back ++ following) front) (backOk : Unmarked following back) :
    Unmarked following (front ++ back) := by
  induction front with
  | nil => exact backOk
  | cons c front ih =>
      rw [List.cons_append]
      refine ⟨?_, ih frontOk.2⟩
      rw [List.append_assoc]
      exact frontOk.1

/-- A text without `<` and braces can stand anywhere. -/
theorem canonical_of_plain {content : String} (proper : content ≠ "")
    (unmarked : '<' ∉ content.toList) (unbraced : '\x7b' ∉ content.toList) :
    (Token.text content).Canonical := by
  refine ⟨proper, unmarked, ?_, ?_⟩
  · intro inside
    exact unbraced (inside.subset (by simp [openBraces]))
  · intro last
    exact unbraced (List.mem_of_getLast? last)

theorem Stands.append {front back following : List Char}
    (stands : Stands front (back ++ following)) (unmarked : Unmarked following back) :
    Stands (front ++ back) following := by
  refine ⟨?_, unmarked_append stands.2 unmarked⟩
  rw [List.append_assoc]
  exact stands.1

end Token

namespace Forest

open Token

/-- A text that stands in front of a template is put in front of its forest. At the
beginning of the template the run of text has to end, or nothing may be recognised there. -/
theorem ofTokens_scan_append {run text : List Char} (proper : run ≠ [])
    (stands : Stands run text)
    (settled : closeTag? text = none ∨ startsMarkup text = true) :
    ofTokens (scan (run ++ text)) =
      prependText (String.ofList run) (ofTokens (scan text)) := by
  rw [scan_of_stands proper stands, ofTokens_text_cons]
  cases text with
  | nil => simp [textRun]
  | cons c rest =>
      cases marked : startsMarkup (c :: rest) with
      | true => rw [textRun_eq_nil (.inr marked), List.append_nil]
      | false =>
          -- The template begins with text itself, which is read as part of the same run.
          have noClose : closeTag? (c :: rest) = none := by simpa [marked] using settled
          have alone : scan (c :: rest) =
              .text (String.ofList (c :: (textRun rest).1)) :: scan (textRun rest).2 :=
            scan_of_stands (List.cons_ne_nil c []) ⟨noClose, marked, trivial⟩
          rw [alone, ofTokens_text_cons, prependText_prependText, ← String.ofList_append]
          simp [textRun, marked]

/-- After text, a closing tag whose name does not begin with a letter is text. -/
theorem ofTokens_scan_append_unlettered {run body : List Char}
    (stands : Stands run ('<' :: '/' :: body))
    (unlettered : closesUnlettered ('<' :: '/' :: body) = true) :
    ofTokens (scan (run ++ '<' :: '/' :: body)) =
      prependText (String.ofList (run ++ ['<', '/'])) (ofTokens (scan body)) := by
  obtain ⟨c, rest, rfl, tagChar, unletter⟩ := exists_of_closesUnlettered unlettered
  have slashed : Unmarked (c :: rest) ['<', '/'] := by
    simp [Unmarked, startsMarkup, unletter]
  have other : c ≠ '<' := by
    rintro rfl
    exact absurd tagChar (by decide)
  have whole := ofTokens_scan_append (by simp) (stands.append slashed)
    (.inl (closeTag?_cons other rest))
  rwa [List.append_assoc] at whole

/-- Alone, it is a closing tag that closes nothing. -/
theorem ofTokens_scan_unlettered {body : List Char}
    (unlettered : closesUnlettered ('<' :: '/' :: body) = true) :
    ofTokens (scan ('<' :: '/' :: body)) =
      ofTokens (scan ((body.dropWhile (· != '>')).drop 1)) := by
  obtain ⟨c, rest, rfl, tagChar, -⟩ := exists_of_closesUnlettered unlettered
  -- The name is skipped on its own, but it holds no `>`.
  have skipped : ((c :: rest).dropWhile isTagChar).dropWhile (· != '>') =
      (c :: rest).dropWhile (· != '>') := by
    have inside : ∀ d ∈ (c :: rest).takeWhile isTagChar, (d != '>') = true := by
      intro d member
      have named := holds_of_mem_takeWhile member
      rw [bne_iff_ne]
      rintro rfl
      exact absurd named (by decide)
    rw [← List.dropWhile_append_of_pos inside, List.takeWhile_append_dropWhile]
  have read : markup? ('<' :: '/' :: c :: rest) =
      some (.closeTag (String.ofList ((c :: rest).takeWhile isTagChar)),
        ((c :: rest).dropWhile (· != '>')).drop 1) := by
    rw [← skipped]
    simp [markup?, comment?, after?, closeTag?, tagChar]
  rw [scan_of_markup? read]
  rfl

/-- A text without `<` and braces is put in front of the forest that is read from what follows
it, unless that begins with a closing tag whose name does not begin with a letter. Such a tag
becomes text together with what is in front of it, although alone it is dropped with everything
up to its end. -/
theorem read_append_plain (front text : String) (proper : front ≠ "")
    (unmarked : '<' ∉ front.toList) (unbraced : '\x7b' ∉ front.toList) :
    (closesUnlettered text.toList = false →
      read (front ++ text) = prependText front (read text)) ∧
    ∀ body : String, text = "</" ++ body → closesUnlettered text.toList = true →
      read (front ++ text) = prependText (front ++ "</") (read body) ∧
        read text = read (String.ofList ((body.toList.dropWhile (· != '>')).drop 1)) := by
  have stands := stands_of_canonical (canonical_of_plain proper unmarked unbraced)
  constructor
  · intro lettered
    have nonempty : front.toList ≠ [] := by simpa using proper
    have whole := ofTokens_scan_append nonempty (stands text.toList)
      (closeTag?_eq_none_or lettered)
    rwa [← String.toList_append, String.ofList_toList] at whole
  · rintro body rfl unlettered
    have chars : ("</" ++ body).toList = '<' :: '/' :: body.toList := String.toList_append
    rw [chars] at unlettered
    constructor
    · have whole := ofTokens_scan_append_unlettered (stands _) unlettered
      rw [String.ofList_append, String.ofList_toList] at whole
      rwa [read, String.toList_append, chars]
    · rw [read, chars, read, String.toList_ofList]
      exact ofTokens_scan_unlettered unlettered

theorem read_append_plain_sample :
    read ("a" ++ "b\x7b\x7b x \x7d\x7d</p>") =
        prependText "a" (read "b\x7b\x7b x \x7d\x7d</p>") ∧
      read ("a" ++ "</1>b") = prependText ("a" ++ "</") (read "1>b") ∧
      read "</1>b" = read "b" := by
  have first := read_append_plain "a" "b\x7b\x7b x \x7d\x7d</p>" (by decide) (by decide)
    (by decide)
  have second := read_append_plain "a" "</1>b" (by decide) (by decide) (by decide)
  exact ⟨first.1 (by decide), second.2 "1>b" (by decide) (by decide)⟩

/-- A closing tag that is dropped on its own is kept as text after other text. -/
theorem read_append_plain_ne :
    read ("a" ++ "</1>") = [.text "a</1>"] ∧ prependText "a" (read "</1>") = [.text "a"] ∧
      read ("a" ++ "</1>") ≠ prependText "a" (read "</1>") := by
  have kept : read ("a" ++ "</1>") = [.text "a</1>"] := by with_unfolding_all rfl
  have dropped : prependText "a" (read "</1>") = [.text "a"] := by with_unfolding_all rfl
  refine ⟨kept, dropped, ?_⟩
  rw [kept, dropped]
  simp

end Forest

end SingleFile.Markup
