import SingleFile.Proofs.Markup.Written

/-!
# Building a forest from its own tokens

Taking in the tokens of a forest one after the other gives the forest back. The
invariant that carries the induction is on the cursor: no open element has a tag
without content, so that the closing tag which is written after such an element
is dropped and closes nothing else.

Main statement: `Forest.ofTokens_tokens`.
-/

namespace SingleFile.Markup

variable {good : Token → Prop}

theorem attach_eq_cons {node : Node} {siblings : List Node}
    (apart : node.isText = true → ∀ last ∈ siblings.head?, last.isText = false) :
    attach node siblings = node :: siblings := by
  unfold attach
  split
  next content before others => simp [Node.isText] at apart
  next => rfl

namespace Cursor

/-- No open element has a tag without content. -/
def Enclosed (enclosing : List Enclosing) : Prop :=
  ∀ element ∈ enclosing, element.tag ∉ voidTags

/-- The closing tag of the innermost open element closes this element only. -/
theorem ascend_self (tag : String) (props : List Property) (earlier siblings : List Node)
    (enclosing : List Enclosing) :
    ascend ⟨siblings, ⟨tag, props, earlier⟩ :: enclosing⟩ tag =
      ⟨.element tag props siblings.reverse false :: earlier, enclosing⟩ := by
  simp [ascend, closeThrough, Enclosing.close, attach]

/-- A closing tag that no open element has is dropped. -/
theorem ascend_of_unopened {tag : String} {enclosing : List Enclosing}
    (unopened : ∀ element ∈ enclosing, element.tag ≠ tag) (siblings : List Node) :
    ascend ⟨siblings, enclosing⟩ tag = ⟨siblings, enclosing⟩ := by
  have absent : enclosing.any (·.tag = tag) = false := by
    simpa using unopened
  simp [ascend, absent]

/-- The closing tag of an element without content is dropped. -/
theorem ascend_void {tag : String} (void : tag ∈ voidTags) {enclosing : List Enclosing}
    (enclosed : Enclosed enclosing) (siblings : List Node) :
    ascend ⟨siblings, enclosing⟩ tag = ⟨siblings, enclosing⟩ := by
  apply ascend_of_unopened
  intro element member equal
  exact enclosed element member (equal ▸ void)

end Cursor

open Cursor

mutual

/-- Taking in the tokens of a node adds the node to the current level. -/
theorem Node.foldl_step_tokens (siblings : List Node) {enclosing : List Enclosing}
    (enclosed : Enclosed enclosing) : (node : Node) → node.Formed good →
    (node.isText = true → ∀ last ∈ siblings.head?, last.isText = false) →
    node.tokens.foldl Cursor.step ⟨siblings, enclosing⟩ = ⟨node :: siblings, enclosing⟩
  | .element tag props children selfClosing, ⟨_, childless, childrenOk⟩, _ => by
      cases selfClosing with
      | true =>
          simp [Node.tokens, Cursor.step, Cursor.add, attach, childless]
      | false =>
          by_cases void : tag ∈ voidTags
          · have noChildren : children = [] := childless (.inr void)
            simp [Node.tokens, Forest.tokens, Cursor.step, Cursor.add, attach, void, noChildren,
              ascend_void void enclosed]
          · have inner : Enclosed (⟨tag, props, siblings⟩ :: enclosing) := by
              intro element member
              rcases List.mem_cons.1 member with rfl | member
              · exact void
              · exact enclosed element member
            have content := Forest.foldl_step_tokens [] inner children childrenOk (by simp)
            simp [Node.tokens, List.foldl_append, Cursor.step, Cursor.descend, void, content,
              ascend_self]
  | .text content, _, apart => by
      simp [Node.tokens, Cursor.step, Cursor.add, attach_eq_cons apart]
  | .comment content, _, _ => by
      simp [Node.tokens, Cursor.step, Cursor.add, attach]
  | .interpolation (.expression content false), _, _ => by
      simp [Node.tokens, Cursor.step, Cursor.add, attach]

/-- Taking in the tokens of siblings adds them to the current level in their order. -/
theorem Forest.foldl_step_tokens (siblings : List Node) {enclosing : List Enclosing}
    (enclosed : Enclosed enclosing) : (forest : List Node) → Forest.Formed good forest →
    (∀ first ∈ forest.head?, first.isText = true →
      ∀ last ∈ siblings.head?, last.isText = false) →
    (Forest.tokens forest).foldl Cursor.step ⟨siblings, enclosing⟩ =
      ⟨forest.reverse ++ siblings, enclosing⟩
  | [], _, _ => rfl
  | node :: nodes, ⟨nodeOk, apart, nodesOk⟩, begins => by
      have head := Node.foldl_step_tokens siblings enclosed node nodeOk (begins node rfl)
      have tail := Forest.foldl_step_tokens (node :: siblings) enclosed nodes nodesOk (by
        intro first isFirst text last isLast
        cases isLast
        cases nodeText : node.isText with
        | false => rfl
        | true => simp [apart nodeText first isFirst] at text)
      simp [Forest.tokens, List.foldl_append, head, tail]

end

/-- The tokens of a forest build this forest. -/
theorem Forest.ofTokens_tokens {forest : List Node} (formed : Forest.Formed good forest) :
    Forest.ofTokens (Forest.tokens forest) = forest := by
  have outermost : Enclosed [] := by simp [Enclosed]
  have built := Forest.foldl_step_tokens [] outermost forest formed (by simp)
  simp [Forest.ofTokens, Cursor.start, built, Cursor.finish, Cursor.closeAll]

end SingleFile.Markup
