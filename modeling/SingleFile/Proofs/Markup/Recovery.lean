import SingleFile.Proofs.Markup.Canonical

/-!
# Closing tags that are missing or stray

Reading mends two sorts of mistakes. An element whose closing tag is missing ends with
the element around it, when it is the last thing in there, and a closing tag that no
open element has is dropped. `Forest.Loose` describes the tokens of a forest with such
mistakes in them: which closing tags may be left out, and where others may be put in.

Taking in such tokens leaves elements open. The invariant of the run says that closing
them gives the forest, and that none of them is closed by a tag that is still to come
but the one of the element around them all.

Main statement: `Forest.read_of_loose`.
-/

namespace SingleFile.Markup

open SingleFile.Text

namespace Forest

/-- A closing tag with this name closes nothing in the forest: every element that has the
name is one without content. -/
def IsStray (forest : List Node) (tag : String) : Prop :=
  IsTagName tag ∧
    ∀ props selfClosing, Token.openTag tag props selfClosing ∈ tokens forest → tag ∈ voidTags

/-- The tokens of a forest with closing tags left out and `stray` ones put in, inside of
elements of which `kept` is the innermost that is closed by its own tag. The closing tag
of an element without content closes nothing, so that it is a stray one. Of the others,
the one of an element may be left out if the element is the last of its siblings and has
another tag than `kept`. -/
inductive Loose (stray : String → Prop) :
    (kept : Option String) → List Node → List Token → Prop where
  | nil {kept : Option String} : Loose stray kept [] []
  | stray {kept : Option String} {tag : String} {forest : List Node} {tokens : List Token} :
      stray tag → Loose stray kept forest tokens →
      Loose stray kept forest (.closeTag tag :: tokens)
  | leaf {kept : Option String} {node : Node} {forest : List Node} {tokens : List Token} :
      node.kind ≠ .element → Loose stray kept forest tokens →
      Loose stray kept (node :: forest) (node.tokens ++ tokens)
  | childless {kept : Option String} {tag : String} {props : List Property}
      {selfClosing : Bool} {forest : List Node} {tokens : List Token} :
      selfClosing = true ∨ tag ∈ voidTags → Loose stray kept forest tokens →
      Loose stray kept (.element tag props [] selfClosing :: forest)
        (.openTag tag props selfClosing :: tokens)
  | closed {kept : Option String} {tag : String} {props : List Property}
      {children forest : List Node} {inner tokens : List Token} :
      tag ∉ voidTags → Loose stray (some tag) children inner → Loose stray kept forest tokens →
      Loose stray kept (.element tag props children false :: forest)
        (.openTag tag props false :: (inner ++ .closeTag tag :: tokens))
  | unclosed {kept : Option String} {tag : String} {props : List Property}
      {children : List Node} {inner after : List Token} :
      tag ∉ voidTags → kept ≠ some tag → Loose stray kept children inner →
      Loose stray kept [] after →
      Loose stray kept [.element tag props children false]
        (.openTag tag props false :: (inner ++ after))

end Forest

/-! ## Elements left open -/

namespace Cursor

variable {stray : String → Prop} {kept : Option String}

/-- No open element has a stray tag. -/
def Unopened (stray : String → Prop) (cursor : Cursor) : Prop :=
  ∀ element ∈ cursor.enclosing, ¬ stray element.tag

/-- A cursor stands within `level` when closing some of the innermost open elements leads
there. None of these has the tag `kept`, whose closing tag is still to come, or a stray
one. -/
def Within (stray : String → Prop) (kept : Option String) (level cursor : Cursor) : Prop :=
  ∃ opened, cursor.enclosing = opened ++ level.enclosing ∧
    closeAll cursor.siblings opened = level.siblings ∧
    ∀ element ∈ opened, kept ≠ some element.tag ∧ ¬ stray element.tag

theorem closeAll_append (siblings : List Node) (front back : List Enclosing) :
    closeAll siblings (front ++ back) = closeAll (closeAll siblings front) back := by
  induction front generalizing siblings with
  | nil => rfl
  | cons element front ih => exact ih _

/-- A closing tag closes everything inside the innermost element that has it. -/
theorem closeThrough_append {tag : String} {opened : List Enclosing} (element : Enclosing)
    (siblings : List Node) (enclosing : List Enclosing)
    (others : ∀ inside ∈ opened, inside.tag ≠ tag) (same : element.tag = tag) :
    closeThrough tag siblings (opened ++ element :: enclosing) =
      ⟨element.close (closeAll siblings opened), enclosing⟩ := by
  induction opened generalizing siblings with
  | nil => simp [closeThrough, closeAll, same]
  | cons inside opened ih =>
      rw [List.forall_mem_cons] at others
      rw [List.cons_append, closeThrough, if_neg others.1, ih _ others.2, closeAll]

theorem Within.refl (cursor : Cursor) : Within stray kept cursor cursor :=
  ⟨[], rfl, rfl, by simp⟩

theorem Within.trans {outer level cursor : Cursor} (inside : Within stray kept level cursor)
    (around : Within stray kept outer level) : Within stray kept outer cursor := by
  obtain ⟨inner, innerEnclosing, innerClosed, innerOk⟩ := inside
  obtain ⟨opened, enclosing, closed, openedOk⟩ := around
  refine ⟨inner ++ opened, ?_, ?_, ?_⟩
  · rw [innerEnclosing, enclosing, List.append_assoc]
  · rw [closeAll_append, innerClosed, closed]
  · intro element member
    cases List.mem_append.1 member with
    | inl member => exact innerOk element member
    | inr member => exact openedOk element member

theorem Within.unopened {level cursor : Cursor} (inside : Within stray kept level cursor)
    (unopened : level.Unopened stray) : cursor.Unopened stray := by
  obtain ⟨opened, enclosing, -, openedOk⟩ := inside
  intro element member
  rw [enclosing, List.mem_append] at member
  cases member with
  | inl member => exact (openedOk element member).2
  | inr member => exact unopened element member

/-- An element that is left open stands within the level around it. -/
theorem Within.leave {tag : String} (other : kept ≠ some tag) (closing : ¬ stray tag)
    (cursor : Cursor) (props : List Property) (children : List Node) :
    Within stray kept
      ⟨.element tag props children false :: cursor.siblings, cursor.enclosing⟩
      ⟨children.reverse, (cursor.descend tag props).enclosing⟩ := by
  refine ⟨[⟨tag, props, cursor.siblings⟩], rfl, ?_, by simpa using ⟨other, closing⟩⟩
  simp [closeAll, Enclosing.close, attach]

/-- The closing tag of an element closes it together with what is left open inside. -/
theorem Within.ascend {tag : String} {props : List Property} {children : List Node}
    {cursor inner : Cursor}
    (inside : Within stray (some tag) ⟨children.reverse, (cursor.descend tag props).enclosing⟩
      inner) :
    inner.ascend tag =
      ⟨.element tag props children false :: cursor.siblings, cursor.enclosing⟩ := by
  obtain ⟨opened, shape, closed, others⟩ := inside
  have present : inner.enclosing.any (·.tag = tag) = true := by simp [shape, descend]
  have distinct : ∀ element ∈ opened, element.tag ≠ tag := by
    intro element member equal
    exact (others element member).1 (congrArg some equal.symm)
  rw [Cursor.ascend, if_pos present, shape]
  simp only [descend] at closed ⊢
  rw [closeThrough_append _ _ _ distinct rfl, closed]
  simp [Enclosing.close, attach]

theorem Unopened.ascend {cursor : Cursor} (unopened : cursor.Unopened stray) {tag : String}
    (isStray : stray tag) : cursor.ascend tag = cursor := by
  apply ascend_of_unopened
  intro element member equal
  exact unopened element member (equal ▸ isStray)

theorem Unopened.descend {cursor : Cursor} (unopened : cursor.Unopened stray) {tag : String}
    (closing : ¬ stray tag) (props : List Property) : (cursor.descend tag props).Unopened stray :=
  List.forall_mem_cons.2 ⟨closing, unopened⟩

theorem step_childless {tag : String} {selfClosing : Bool}
    (childless : selfClosing = true ∨ tag ∈ voidTags) (cursor : Cursor) (props : List Property) :
    cursor.step (.openTag tag props selfClosing) =
      ⟨.element tag props [] selfClosing :: cursor.siblings, cursor.enclosing⟩ := by
  have closed : (selfClosing || voidTags.contains tag) = true := by simpa using childless
  rw [Cursor.step, if_pos closed]
  rfl

theorem step_descend {tag : String} (nonvoid : tag ∉ voidTags) (cursor : Cursor)
    (props : List Property) :
    cursor.step (.openTag tag props false) = cursor.descend tag props := by
  simp [Cursor.step, nonvoid]

end Cursor

/-- A node other than an element is added to the current level. -/
theorem Node.foldl_step_leaf {good : Token → Prop} (cursor : Cursor) : (node : Node) →
    node.Formed good → node.kind ≠ .element →
    (node.isText = true → ∀ last ∈ cursor.siblings.head?, last.isText = false) →
    node.tokens.foldl Cursor.step cursor = ⟨node :: cursor.siblings, cursor.enclosing⟩
  | .element .., _, notElement, _ => absurd rfl notElement
  | .text content, _, _, apart => by
      simp [Node.tokens, Cursor.step, Cursor.add, attach_eq_cons apart]
  | .comment content, _, _, _ => by simp [Node.tokens, Cursor.step, Cursor.add, attach]
  | .interpolation (.expression content false), _, _, _ => by
      simp [Node.tokens, Cursor.step, Cursor.add, attach]

/-! ## Taking in loose tokens -/

namespace Forest

open Cursor

variable {good : Token → Prop} {stray : String → Prop} {kept : Option String}

/-- Stray tags are those of no element with content. -/
def Harmless (stray : String → Prop) (forest : List Node) : Prop :=
  ∀ tag props selfClosing, Token.openTag tag props selfClosing ∈ tokens forest → stray tag →
    tag ∈ voidTags

theorem Harmless.tail {node : Node} {forest : List Node}
    (harmless : Harmless stray (node :: forest)) : Harmless stray forest := by
  intro tag props selfClosing member
  exact harmless tag props selfClosing (by simp [tokens, member])

theorem Harmless.children {tag : String} {props : List Property} {children forest : List Node}
    (harmless : Harmless stray (.element tag props children false :: forest)) :
    Harmless stray children := by
  intro tag props selfClosing member
  exact harmless tag props selfClosing (by simp [tokens, Node.tokens, member])

theorem Harmless.not_stray {tag : String} {props : List Property} {children forest : List Node}
    (harmless : Harmless stray (.element tag props children false :: forest))
    (nonvoid : tag ∉ voidTags) : ¬ stray tag := by
  intro isStray
  exact nonvoid (harmless tag props false (by simp [tokens, Node.tokens]) isStray)

/-- A forest can be added after these siblings without joining two texts. -/
def Follows (forest siblings : List Node) : Prop :=
  ∀ first ∈ forest.head?, first.isText = true → ∀ last ∈ siblings.head?, last.isText = false

theorem Formed.follows {node : Node} {forest siblings : List Node}
    (formed : Formed good (node :: forest)) : Follows forest (node :: siblings) := by
  intro first isFirst text last isLast
  cases isLast
  cases nodeText : node.isText with
  | false => rfl
  | true => simp [formed.2.1 nodeText first isFirst] at text

/-- Taking in loose tokens adds the forest to the current level, once the elements that are
left open are closed. -/
theorem Loose.foldl_step {forest : List Node} {tokens : List Token}
    (loose : Loose stray kept forest tokens) (cursor : Cursor) (formed : Formed good forest)
    (follows : Follows forest cursor.siblings) (harmless : Harmless stray forest)
    (unopened : cursor.Unopened stray) :
    Within stray kept ⟨forest.reverse ++ cursor.siblings, cursor.enclosing⟩
      (tokens.foldl Cursor.step cursor) := by
  induction loose generalizing cursor with
  | nil => exact .refl cursor
  | stray isStray _ ih =>
      rw [List.foldl_cons, Cursor.step, unopened.ascend isStray]
      exact ih cursor formed follows harmless unopened
  | @leaf kept node forest tokens notElement _ ih =>
      rw [List.foldl_append, node.foldl_step_leaf cursor formed.1 notElement (follows node rfl)]
      have later := ih ⟨node :: cursor.siblings, cursor.enclosing⟩ formed.2.2 formed.follows
        harmless.tail unopened
      simpa using later
  | @childless kept tag props selfClosing forest tokens empty _ ih =>
      rw [List.foldl_cons, step_childless empty]
      have later := ih ⟨.element tag props [] selfClosing :: cursor.siblings, cursor.enclosing⟩
        formed.2.2 formed.follows harmless.tail unopened
      simpa using later
  | @closed kept tag props children forest inner tokens nonvoid _ _ innerIH ih =>
      have fresh := unopened.descend (harmless.not_stray nonvoid) props
      have inside := innerIH (cursor.descend tag props) formed.1.2.2 (by simp [Follows, descend])
        harmless.children fresh
      rw [show (cursor.descend tag props).siblings = [] from rfl, List.append_nil] at inside
      have later := ih ⟨.element tag props children false :: cursor.siblings, cursor.enclosing⟩
        formed.2.2 formed.follows harmless.tail unopened
      rw [List.foldl_cons, step_descend nonvoid, List.foldl_append, List.foldl_cons, Cursor.step,
        inside.ascend]
      simpa using later
  | @unclosed kept tag props children inner after nonvoid other _ _ innerIH afterIH =>
      have fresh := unopened.descend (harmless.not_stray nonvoid) props
      have inside := innerIH (cursor.descend tag props) formed.1.2.2 (by simp [Follows, descend])
        harmless.children fresh
      rw [show (cursor.descend tag props).siblings = [] from rfl, List.append_nil] at inside
      have ending := afterIH (inner.foldl Cursor.step (cursor.descend tag props)) trivial
        (by simp [Follows]) (by simp [Harmless, Forest.tokens]) (inside.unopened fresh)
      have around := Within.leave other (harmless.not_stray nonvoid) cursor props children
      rw [List.foldl_cons, step_descend nonvoid, List.foldl_append]
      exact ending.trans (inside.trans around)

/-- Loose tokens build the forest. -/
theorem Loose.ofTokens {forest : List Node} {tokens : List Token}
    (loose : Loose stray none forest tokens) (formed : Formed good forest)
    (harmless : Harmless stray forest) : Forest.ofTokens tokens = forest := by
  obtain ⟨opened, shape, closed, -⟩ := loose.foldl_step Cursor.start formed
    (by simp [Follows, start]) harmless (by simp [Unopened, start])
  have remaining : (tokens.foldl Cursor.step Cursor.start).enclosing = opened :=
    shape.trans (List.append_nil opened)
  rw [Forest.ofTokens, finish, remaining, closed]
  simp [start]

/-! ## Scanning loose tokens -/

/-- Loose tokens are those of the forest, and stray closing tags. -/
theorem Loose.mem {forest : List Node} {tokens : List Token}
    (loose : Loose stray kept forest tokens) :
    ∀ token ∈ tokens, token ∈ Forest.tokens forest ∨ ∃ tag, stray tag ∧ token = .closeTag tag := by
  induction loose with
  | nil => simp
  | stray isStray _ ih =>
      intro token member
      cases List.mem_cons.1 member with
      | inl equal => exact .inr ⟨_, isStray, equal⟩
      | inr member => exact ih token member
  | leaf _ _ ih => grind [Forest.tokens]
  | childless empty _ ih => grind [Forest.tokens, Node.tokens]
  | closed _ _ _ innerIH ih => grind [Forest.tokens, Node.tokens]
  | unclosed _ _ _ _ innerIH afterIH => grind [Forest.tokens, Node.tokens]

theorem Loose.canonical {forest : List Node} {tokens : List Token} (canonical : Canonical forest)
    (loose : Loose stray kept forest tokens) (named : ∀ tag, stray tag → IsTagName tag) :
    ∀ token ∈ tokens, token.Canonical := by
  intro token member
  cases loose.mem token member with
  | inl own => exact canonical.token token own
  | inr added =>
      obtain ⟨tag, isStray, rfl⟩ := added
      exact named tag isStray

/-- Loose tokens begin with a text only if the forest does, or with what follows them. -/
theorem Loose.head_isText {forest : List Node} {tokens rest : List Token}
    (loose : Loose stray kept forest tokens) (formed : Formed good forest)
    (ends : ∀ next ∈ rest.head?, next.isText = false)
    (unmarked : ∀ first ∈ forest.head?, first.isText = false) :
    ∀ next ∈ (tokens ++ rest).head?, next.isText = false := by
  cases loose with
  | nil => exact ends
  | stray | childless | closed | unclosed => simp [Token.isText]
  | @leaf kept node forest tokens _ _ =>
      obtain ⟨token, others, shape, same⟩ := Node.head_tokens node formed.1
      simp [shape, same, unmarked node rfl]

/-- No two texts meet in loose tokens. -/
theorem Loose.apart {forest : List Node} {tokens rest : List Token}
    (loose : Loose stray kept forest tokens) (formed : Formed good forest)
    (apart : Token.Apart rest) (ends : ∀ next ∈ rest.head?, next.isText = false) :
    Token.Apart (tokens ++ rest) := by
  induction loose generalizing rest with
  | nil => exact apart
  | stray _ _ ih => exact ⟨by simp [Token.isText], ih formed apart ends⟩
  | @leaf kept node forest tokens _ loose ih =>
      rw [List.append_assoc]
      apply Node.apart_tokens (ih formed.2.2 apart ends) node formed.1
      intro isText
      exact loose.head_isText formed.2.2 ends (formed.2.1 isText)
  | childless _ _ ih => exact ⟨by simp [Token.isText], ih formed.2.2 apart ends⟩
  | @closed kept tag props children forest inner tokens _ _ _ innerIH ih =>
      rw [List.cons_append, List.append_assoc]
      refine ⟨by simp [Token.isText], ?_⟩
      apply innerIH formed.1.2.2
      · exact ⟨by simp [Token.isText], ih formed.2.2 apart ends⟩
      · simp [Token.isText]
  | @unclosed kept tag props children inner after _ _ _ loose innerIH afterIH =>
      rw [List.cons_append, List.append_assoc]
      refine ⟨by simp [Token.isText], ?_⟩
      apply innerIH formed.1.2.2
      · exact afterIH trivial apart ends
      · have empty : Formed good [] := trivial
        exact loose.head_isText empty ends (by simp)

end Forest

/-! ## Reading -/

mutual

theorem Node.loose_tokens {good : Token → Prop} {stray : String → Prop} {kept : Option String}
    (void : ∀ tag ∈ voidTags, stray tag) {forest : List Node} {rest : List Token}
    (later : Forest.Loose stray kept forest rest) : (node : Node) → node.Formed good →
    Forest.Loose stray kept (node :: forest) (node.tokens ++ rest)
  | .element tag props children true, ⟨_, childless, _⟩ => by
      rw [childless (.inl rfl)]
      exact .childless (.inl rfl) later
  | .element tag props children false, ⟨_, childless, childrenOk⟩ => by
      by_cases isVoid : tag ∈ voidTags
      · rw [childless (.inr isVoid)]
        exact .childless (.inr isVoid) (.stray (void tag isVoid) later)
      · have inner := Forest.loose_tokens void (some tag) children childrenOk
        simpa [Node.tokens] using Forest.Loose.closed isVoid inner later
  | .text _, _ => .leaf (by simp [Node.kind]) later
  | .comment _, _ => .leaf (by simp [Node.kind]) later
  | .interpolation (.expression _ false), _ => .leaf (by simp [Node.kind]) later

/-- The tokens of a forest as they are printed are loose, without a mistake in them. -/
theorem Forest.loose_tokens {good : Token → Prop} {stray : String → Prop}
    (void : ∀ tag ∈ voidTags, stray tag) (kept : Option String) : (forest : List Node) →
    Forest.Formed good forest → Forest.Loose stray kept forest (Forest.tokens forest)
  | [], _ => .nil
  | node :: nodes, ⟨nodeOk, _, nodesOk⟩ =>
      Node.loose_tokens void (Forest.loose_tokens void kept nodes nodesOk) node nodeOk

end

namespace Forest

theorem isTagName_of_mem_voidTags : ∀ tag ∈ voidTags, IsTagName tag := by decide

/-- A canonical forest is printed as the text of its tokens. With closing tags left out and
stray ones put in the text is read as the same forest. -/
theorem read_of_loose (forest : List Node) (canonical : Canonical forest) :
    ∃ texts, forest.mapM Node.render = .ok texts ∧
      String.join texts = String.ofList (Token.writtenAll (tokens forest)) ∧
      Loose (IsStray forest) none forest (tokens forest) ∧
      ∀ loose, Loose (IsStray forest) none forest loose →
        read (String.ofList (Token.writtenAll loose)) = forest := by
  obtain ⟨texts, printed, joined⟩ := mapM_render_eq canonical.wellFormed
  refine ⟨texts, printed, joined, ?_, ?_⟩
  · apply loose_tokens _ none forest canonical
    intro tag isVoid
    exact ⟨isTagName_of_mem_voidTags tag isVoid, fun _ _ _ => isVoid⟩
  · intro tokens loose
    have tokensOk := loose.canonical canonical fun tag isStray => isStray.1
    have apart : Token.Apart (tokens ++ []) := loose.apart canonical trivial (by simp)
    rw [List.append_nil] at apart
    rw [read, String.toList_ofList, Token.scan_writtenAll
      (fun token member => token.wellFormed_of_canonical (tokensOk token member))
      (fun token member => token.quoteFree_of_canonical (tokensOk token member)) apart
      (Token.legible_of_canonical tokensOk)]
    apply loose.ofTokens canonical
    intro tag props selfClosing member isStray
    exact isStray.2 props selfClosing member

theorem read_of_loose_sample :
    let forest : List Node :=
      [.element "div" []
        [.element "br" [] [] false, .element "p" [] [.element "i" [] [.text "x"] false] false] false,
        .text "-", .element "p" [] [.element "p" [] [] false] false]
    let text := "<div><br></b><p><i>x</b></div></br>-<p><p>"
    Canonical forest ∧
      (∃ loose, Loose (IsStray forest) none forest loose ∧
        String.ofList (Token.writtenAll loose) = text) ∧
      read text = forest := by
  intro forest text
  have canonical : Canonical forest := by decide +kernel
  have bold : IsStray forest "b" := by
    refine ⟨by decide, ?_⟩
    intro props selfClosing member
    simp [forest, tokens, Node.tokens] at member
  have line : IsStray forest "br" := ⟨by decide, fun _ _ _ => by decide⟩
  have first : Loose (IsStray forest) (some "div")
      [.element "p" [] [.element "i" [] [.text "x"] false] false] _ :=
    .unclosed (by decide) (by decide)
      (.unclosed (by decide) (by decide) (.leaf (by decide) (.stray bold .nil)) .nil) .nil
  have second : Loose (IsStray forest) none
      [.element "p" [] [.element "p" [] [] false] false] _ :=
    .unclosed (by decide) (by decide) (.unclosed (by decide) (by decide) .nil .nil) .nil
  obtain ⟨tokens, loose, written⟩ : ∃ tokens, Loose (IsStray forest) none forest tokens ∧
      String.ofList (Token.writtenAll tokens) = text :=
    ⟨_, .closed (by decide) (.childless (.inr (by decide)) (.stray bold first))
      (.stray line (.leaf (by decide) second)), by decide +kernel⟩
  obtain ⟨-, -, -, -, mended⟩ := read_of_loose forest canonical
  refine ⟨canonical, ⟨tokens, loose, written⟩, ?_⟩
  rw [← written]
  exact mended tokens loose

end Forest

end SingleFile.Markup
