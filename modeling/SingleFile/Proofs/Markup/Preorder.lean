import SingleFile.Markup.Forest

/-!
# The order of nodes

Reading loses no node, repeats none and keeps their order, whatever is closed,
left open or closed without being open. What a forest consists of is listed by
`Forest.preorder`: every node where it begins, without its children. Texts on both
sides of a dropped closing tag become one, so that lists are compared up to the
joining of neighbouring texts, `joinTexts`.

The list of a cursor names what has been read so far. A closing tag leaves it as it
is, and every other token adds one node at its end.

Main statement: `Forest.joinTexts_preorder_read`.
-/

namespace SingleFile.Markup

mutual

/-- A node and what it holds, in the order in which they begin, each without its
children. -/
def Node.preorder : Node → List Node
  | .root attrs children => .root attrs [] :: Forest.preorder children
  | .element tag props children selfClosing =>
    .element tag props [] selfClosing :: Forest.preorder children
  | .text content => [.text content]
  | .comment content => [.comment content]
  | .expression content isStatic => [.expression content isStatic]
  | .interpolation content => [.interpolation content]
  | .property prop => [.property prop]

/-- The nodes of a forest in the order in which they begin, each without its children. -/
def Forest.preorder : List Node → List Node
  | [] => []
  | node :: nodes => node.preorder ++ Forest.preorder nodes

end

@[simp] theorem Forest.preorder_append (front back : List Node) :
    Forest.preorder (front ++ back) = Forest.preorder front ++ Forest.preorder back := by
  induction front with
  | nil => rfl
  | cons node front ih => simp [Forest.preorder, ih]

/-- The node that a token stands for. A closing tag is the end of a node and not one. -/
def Token.node? : Token → Option Node
  | .comment content => some (.comment content)
  | .closeTag _ => none
  | .openTag tag props selfClosing => some (.element tag props [] selfClosing)
  | .interpolation content => some (.interpolation (.expression content false))
  | .text content => some (.text content)

/-! ## Joining texts -/

/-- Nodes with text in front of them, as part of the first one when that is text. -/
def prependText (content : String) : List Node → List Node
  | .text next :: nodes => .text (content ++ next) :: nodes
  | nodes => .text content :: nodes

/-- Nodes with every run of neighbouring texts joined. -/
def joinTexts : List Node → List Node
  | [] => []
  | .text content :: nodes => prependText content (joinTexts nodes)
  | node :: nodes => node :: joinTexts nodes

theorem exists_prependText (content : String) (nodes : List Node) :
    ∃ joined others, prependText content nodes = .text joined :: others := by
  fun_cases prependText content nodes with
  | case1 next others => exact ⟨_, _, rfl⟩
  | case2 => exact ⟨_, _, rfl⟩

theorem prependText_prependText (first second : String) (nodes : List Node) :
    prependText first (prependText second nodes) = prependText (first ++ second) nodes := by
  fun_cases prependText second nodes with
  | case1 next others => simp [prependText, String.append_assoc]
  | case2 nodes other => simp [prependText]

/-- What is joined at the end can be joined first. -/
theorem joinTexts_append_congr (front : List Node) {back other : List Node}
    (same : joinTexts back = joinTexts other) :
    joinTexts (front ++ back) = joinTexts (front ++ other) := by
  induction front with
  | nil => exact same
  | cons node front ih =>
      rw [List.cons_append, List.cons_append]
      cases node with
      | text content => rw [joinTexts, joinTexts, ih]
      | _ => simp only [joinTexts, ih]

theorem joinTexts_prependText_append (content : String) (nodes back : List Node) :
    joinTexts (prependText content nodes ++ back) =
      prependText content (joinTexts (nodes ++ back)) := by
  fun_cases prependText content nodes with
  | case1 next others => simp only [List.cons_append, joinTexts, prependText_prependText]
  | case2 nodes other => simp only [List.cons_append, joinTexts]

/-- What is joined at the beginning can be joined first. -/
theorem joinTexts_joinTexts_append (front back : List Node) :
    joinTexts (joinTexts front ++ back) = joinTexts (front ++ back) := by
  induction front with
  | nil => rfl
  | cons node front ih =>
      cases node with
      | text content =>
          rw [joinTexts, joinTexts_prependText_append, ih, List.cons_append, joinTexts]
      | _ => simp only [joinTexts, List.cons_append, ih]

/-! ## What a cursor has read -/

/-- What was begun around the current level: before every open element the siblings
before it, then the element itself, the outermost first. -/
def Enclosing.preorder : List Enclosing → List Node
  | [] => []
  | element :: enclosing =>
    preorder enclosing ++
      (Forest.preorder element.earlier.reverse ++ [.element element.tag element.props [] false])

namespace Cursor

/-- Everything that was read so far, in the order in which it begins. -/
def preorder (cursor : Cursor) : List Node :=
  Enclosing.preorder cursor.enclosing ++ Forest.preorder cursor.siblings.reverse

/-- Closing an element moves its content into it and changes no order. -/
theorem preorder_close (siblings : List Node) (element : Enclosing)
    (enclosing : List Enclosing) :
    preorder ⟨element.close siblings, enclosing⟩ = preorder ⟨siblings, element :: enclosing⟩ := by
  simp [preorder, Enclosing.preorder, Enclosing.close, attach, Forest.preorder, Node.preorder]

theorem preorder_closeThrough (tag : String) (siblings : List Node)
    (enclosing : List Enclosing) :
    (closeThrough tag siblings enclosing).preorder = preorder ⟨siblings, enclosing⟩ := by
  induction enclosing generalizing siblings with
  | nil => rfl
  | cons element enclosing ih =>
      rw [closeThrough]
      split
      next => exact preorder_close siblings element enclosing
      next => rw [ih, preorder_close]

/-- A closing tag changes no order, however many elements it closes. -/
theorem preorder_ascend (cursor : Cursor) (tag : String) :
    (cursor.ascend tag).preorder = cursor.preorder := by
  rw [ascend]
  split
  next => exact preorder_closeThrough tag cursor.siblings cursor.enclosing
  next => rfl

theorem preorder_descend (cursor : Cursor) (tag : String) (props : List Property) :
    (cursor.descend tag props).preorder = cursor.preorder ++ [.element tag props [] false] := by
  simp [preorder, descend, Enclosing.preorder, Forest.preorder]

/-- A node is added at the end, or as the end of the text before it. -/
theorem joinTexts_preorder_add (cursor : Cursor) (node : Node) :
    joinTexts (cursor.add node).preorder = joinTexts (cursor.preorder ++ node.preorder) := by
  rcases cursor with ⟨siblings, enclosing⟩
  change joinTexts (preorder ⟨attach node siblings, enclosing⟩) = _
  fun_cases attach node siblings with
  | case1 content before others =>
      simp only [preorder, List.reverse_cons, Forest.preorder_append, Forest.preorder,
        Node.preorder, List.append_assoc]
      apply joinTexts_append_congr
      apply joinTexts_append_congr
      simp [joinTexts, prependText]
  | case2 => simp [preorder, Forest.preorder]

/-- A token adds its node to what was read, if it has one. -/
theorem joinTexts_preorder_step (cursor : Cursor) (token : Token) :
    joinTexts (cursor.step token).preorder = joinTexts (cursor.preorder ++ token.node?.toList) := by
  cases token with
  | closeTag tag => simp [step, preorder_ascend, Token.node?]
  | openTag tag props selfClosing =>
      rw [step]
      split
      next => exact joinTexts_preorder_add cursor _
      next opens =>
        have unclosed : selfClosing = false := by
          simp only [Bool.or_eq_true, not_or, Bool.not_eq_true] at opens
          exact opens.1
        rw [preorder_descend, unclosed]
        rfl
  | comment content => exact joinTexts_preorder_add cursor _
  | interpolation content => exact joinTexts_preorder_add cursor _
  | text content => exact joinTexts_preorder_add cursor _

/-- Tokens add their nodes to what was read, one after the other. -/
theorem joinTexts_preorder_foldl_step (cursor : Cursor) (tokens : List Token) :
    joinTexts (tokens.foldl Cursor.step cursor).preorder =
      joinTexts (cursor.preorder ++ tokens.filterMap Token.node?) := by
  induction tokens generalizing cursor with
  | nil => simp
  | cons token tokens ih =>
      have listed : (token :: tokens).filterMap Token.node? =
          token.node?.toList ++ tokens.filterMap Token.node? := by
        cases found : token.node? <;> simp [found]
      calc joinTexts ((token :: tokens).foldl Cursor.step cursor).preorder
          = joinTexts ((cursor.step token).preorder ++ tokens.filterMap Token.node?) := ih _
        _ = joinTexts ((cursor.preorder ++ token.node?.toList) ++
              tokens.filterMap Token.node?) := by
            rw [← joinTexts_joinTexts_append, joinTexts_preorder_step,
              joinTexts_joinTexts_append]
        _ = joinTexts (cursor.preorder ++ (token :: tokens).filterMap Token.node?) := by
            rw [List.append_assoc, listed]

/-- What is still open at the end is closed, which changes no order. -/
theorem preorder_finish (cursor : Cursor) : Forest.preorder cursor.finish = cursor.preorder := by
  rcases cursor with ⟨siblings, enclosing⟩
  change Forest.preorder (closeAll siblings enclosing).reverse = _
  induction enclosing generalizing siblings with
  | nil => rfl
  | cons element enclosing ih => rw [closeAll, ih, preorder_close]

end Cursor

namespace Forest

/-- The nodes of a forest are those of the tokens that it is built from, in their order. -/
theorem joinTexts_preorder_ofTokens (tokens : List Token) :
    joinTexts (preorder (ofTokens tokens)) = joinTexts (tokens.filterMap Token.node?) := by
  rw [ofTokens, Cursor.preorder_finish, Cursor.joinTexts_preorder_foldl_step]
  rfl

/-- The nodes of the forest that is read from a text, in the order in which they begin, are
those of the text's tokens, up to the joining of neighbouring texts. -/
theorem joinTexts_preorder_read (text : String) :
    joinTexts (preorder (read text)) =
      joinTexts ((Token.scan text.toList).filterMap Token.node?) :=
  joinTexts_preorder_ofTokens (Token.scan text.toList)

end Forest

end SingleFile.Markup
