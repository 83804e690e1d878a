import SingleFile.Proofs.Markup.Building
import SingleFile.Proofs.Markup.Lexing

/-!
# Printing a forest and reading it back

Printing meets reading at the tokens, so that a forest is read back when its
tokens are well formed, hold no double quote in a value and are legible.

Main statement: `Forest.Printable.read_writtenAll`.
-/

namespace SingleFile.Markup

open SingleFile.Text

variable {good better : Token → Prop}

/-! ## The tokens of a formed forest -/

mutual

theorem Node.good_of_mem_tokens
    (closing : ∀ tag props selfClosing, good (.openTag tag props selfClosing) →
      good (.closeTag tag)) :
    (node : Node) → node.Formed good → ∀ token ∈ node.tokens, good token
  | .element tag props children selfClosing, ⟨openOk, _, childrenOk⟩, token, member => by
      have inner := Forest.good_of_mem_tokens closing children childrenOk token
      rw [Node.tokens, List.mem_cons] at member
      rcases member with rfl | member
      · exact openOk
      · cases selfClosing with
        | true => simp at member
        | false =>
            simp only [Bool.false_eq_true, if_false, List.mem_append, List.mem_singleton] at member
            rcases member with member | rfl
            · exact inner member
            · exact closing tag props false openOk
  | .text _, ok, token, member => by
      simp only [Node.tokens, List.mem_singleton] at member
      exact member ▸ ok
  | .comment _, ok, token, member => by
      simp only [Node.tokens, List.mem_singleton] at member
      exact member ▸ ok
  | .interpolation (.expression _ false), ok, token, member => by
      simp only [Node.tokens, List.mem_singleton] at member
      exact member ▸ ok

/-- The tokens of a forest with good tokens are good. -/
theorem Forest.good_of_mem_tokens
    (closing : ∀ tag props selfClosing, good (.openTag tag props selfClosing) →
      good (.closeTag tag)) :
    (forest : List Node) → Forest.Formed good forest → ∀ token ∈ Forest.tokens forest, good token
  | [], _, _, member => by simp [Forest.tokens] at member
  | node :: nodes, ⟨nodeOk, _, nodesOk⟩, token, member => by
      rw [Forest.tokens, List.mem_append] at member
      rcases member with member | member
      · exact Node.good_of_mem_tokens closing node nodeOk token member
      · exact Forest.good_of_mem_tokens closing nodes nodesOk token member

end

mutual

theorem Node.Formed.of_tokens : (node : Node) → node.Formed good →
    (∀ token ∈ node.tokens, better token) → node.Formed better
  | .element tag props children selfClosing, ⟨_, childless, childrenOk⟩, tokensOk => by
      rcases List.forall_mem_cons.1 tokensOk with ⟨openOk, innerOk⟩
      refine ⟨openOk, childless, ?_⟩
      cases selfClosing with
      | true =>
          rw [childless (.inl rfl)]
          trivial
      | false =>
          apply Forest.Formed.of_tokens children childrenOk
          intro token member
          exact innerOk token (by simp [member])
  | .text _, _, tokensOk => tokensOk _ (by simp [Node.tokens])
  | .comment _, _, tokensOk => tokensOk _ (by simp [Node.tokens])
  | .interpolation (.expression _ false), _, tokensOk => tokensOk _ (by simp [Node.tokens])

/-- A formed forest is formed with respect to everything that holds of its tokens. -/
theorem Forest.Formed.of_tokens : (forest : List Node) → Forest.Formed good forest →
    (∀ token ∈ Forest.tokens forest, better token) → Forest.Formed better forest
  | [], _, _ => trivial
  | node :: nodes, ⟨nodeOk, apart, nodesOk⟩, tokensOk => by
      refine ⟨Node.Formed.of_tokens node nodeOk ?_, apart,
        Forest.Formed.of_tokens nodes nodesOk ?_⟩
      · intro token member
        exact tokensOk token (by simp [Forest.tokens, member])
      · intro token member
        exact tokensOk token (by simp [Forest.tokens, member])

end

/-- The first token of a node is text when the node is. -/
theorem Node.head_tokens : (node : Node) → node.Formed good →
    ∃ token tokens, node.tokens = token :: tokens ∧ token.isText = node.isText
  | .element .., _ => ⟨_, _, rfl, rfl⟩
  | .text _, _ => ⟨_, _, rfl, rfl⟩
  | .comment _, _ => ⟨_, _, rfl, rfl⟩
  | .interpolation (.expression _ false), _ => ⟨_, _, rfl, rfl⟩

mutual

theorem Node.apart_tokens {rest : List Token} (apart : Token.Apart rest) :
    (node : Node) → node.Formed good →
    (node.isText = true → ∀ next ∈ rest.head?, next.isText = false) →
    Token.Apart (node.tokens ++ rest)
  | .element tag props children selfClosing, ⟨_, _, childrenOk⟩, _ => by
      refine ⟨by simp [Token.isText], ?_⟩
      cases selfClosing with
      | true => exact apart
      | false =>
          have closed : Token.Apart (.closeTag tag :: rest) := ⟨by simp [Token.isText], apart⟩
          have inner := Forest.apart_tokens closed (by simp [Token.isText]) children childrenOk
          simpa using inner
  | .text _, _, ends => ⟨fun _ => ends rfl, apart⟩
  | .comment _, _, _ => ⟨by simp [Token.isText], apart⟩
  | .interpolation (.expression _ false), _, _ => ⟨by simp [Token.isText], apart⟩

/-- Texts that are no neighbours in a forest are none among its tokens. -/
theorem Forest.apart_tokens {rest : List Token} (apart : Token.Apart rest)
    (ends : ∀ next ∈ rest.head?, next.isText = false) :
    (forest : List Node) → Forest.Formed good forest → Token.Apart (Forest.tokens forest ++ rest)
  | [], _ => apart
  | node :: nodes, ⟨nodeOk, neighbours, nodesOk⟩ => by
      have later := Forest.apart_tokens apart ends nodes nodesOk
      rw [Forest.tokens, List.append_assoc]
      apply Node.apart_tokens later node nodeOk
      intro isText next head
      cases nodes with
      | nil => exact ends next head
      | cons other nodes =>
          rcases Node.head_tokens other nodesOk.1 with ⟨token, tokens, shape, same⟩
          simp only [Forest.tokens, shape, List.cons_append, List.head?_cons,
            Option.mem_some_iff] at head
          rw [← head, same]
          exact neighbours isText other rfl

end

namespace Forest

/-- A formed forest with legible tokens and no double quote in a value. -/
structure Printable (forest : List Node) : Prop where
  formed : Formed Token.WellFormed forest
  quoteFree : ∀ token ∈ tokens forest, token.QuoteFree
  legible : Token.Legible (tokens forest)

namespace Printable

variable {forest : List Node}

theorem wellFormed (printable : Printable forest) : ∀ token ∈ tokens forest, token.WellFormed :=
  good_of_mem_tokens (fun _ _ _ ok => ok.1) forest printable.formed

theorem apart (printable : Printable forest) : Token.Apart (tokens forest) := by
  have ended : Token.Apart [] := trivial
  simpa using apart_tokens ended (by simp) forest printable.formed

/-- A printable forest is read back from its text. -/
theorem read_writtenAll (printable : Printable forest) :
    Forest.read (String.ofList (Token.writtenAll (tokens forest))) = forest := by
  rw [Forest.read, String.toList_ofList, Token.scan_writtenAll printable.wellFormed
    printable.quoteFree printable.apart printable.legible, ofTokens_tokens printable.formed]

end Printable

end Forest

end SingleFile.Markup
