import SingleFile.Json.Token

/-!
# Reading JSON

Tokens are put together to one value by recursive descent. Arrays and objects
nest to a limited depth.
-/

namespace SingleFile.Json

/-- A value read from the start of `tokens`, and the fewer tokens after it. -/
structure Parsed (α : Type) (tokens : List Token) where
  value : α
  rest : List Token
  shorter : rest.length < tokens.length

namespace Value

/-- How deep arrays and objects nest. -/
def depthLimit : Nat := 127

mutual

/-- One value; `depth` levels of nesting are left. -/
def ofTokens? (depth : Nat) (tokens : List Token) : Option (Parsed Value tokens) :=
  match tokens with
  | .scalar value :: rest => some ⟨value, rest, Nat.lt_succ_self _⟩
  | .openArray :: rest =>
    if depth = 0 then none
    else
      match rest with
      | .closeArray :: tail => some ⟨.array [], tail, by simp only [List.length_cons]; omega⟩
      | rest => do
        let found ← itemsOfTokens? (depth - 1) rest
        return ⟨.array found.value, found.rest, Nat.lt_succ_of_lt found.shorter⟩
  | .openObject :: rest =>
    if depth = 0 then none
    else
      match rest with
      | .closeObject :: tail => some ⟨.object [], tail, by simp only [List.length_cons]; omega⟩
      | rest => do
        let found ← membersOfTokens? (depth - 1) [] rest
        return ⟨.object found.value, found.rest, Nat.lt_succ_of_lt found.shorter⟩
  | _ => none
termination_by 2 * tokens.length
decreasing_by all_goals simp only [List.length_cons]; omega

/-- The values of an array up to its closing bracket. -/
def itemsOfTokens? (depth : Nat) (tokens : List Token) : Option (Parsed (List Value) tokens) := do
  let item ← ofTokens? depth tokens
  match _shape : item.rest with
  | .closeArray :: tail =>
    return ⟨[item.value], tail, by
      have := item.shorter
      rw [_shape] at this
      exact Nat.lt_of_succ_lt this⟩
  | .comma :: tail =>
    have shorter : tail.length < tokens.length := by
      have := item.shorter
      rw [_shape] at this
      exact Nat.lt_of_succ_lt this
    let items ← itemsOfTokens? depth tail
    return ⟨item.value :: items.value, items.rest, Nat.lt_trans items.shorter shorter⟩
  | _ => none
termination_by 2 * tokens.length + 1
decreasing_by
  · exact Nat.lt_succ_self _
  · omega

/-- The members of an object up to its closing bracket, added to those before. -/
def membersOfTokens? (depth : Nat) (before : Members) (tokens : List Token) :
    Option (Parsed Members tokens) :=
  match tokens with
  | .scalar (.string key) :: .colon :: rest => do
    let value ← ofTokens? depth rest
    let members := before.insert key value.value
    match _shape : value.rest with
    | .closeObject :: tail =>
      return ⟨members, tail, by
        have := value.shorter
        rw [_shape] at this
        simp only [List.length_cons] at this ⊢
        omega⟩
    | .comma :: tail =>
      have shorter : tail.length < rest.length + 2 := by
        have := value.shorter
        rw [_shape] at this
        simp only [List.length_cons] at this
        omega
      let found ← membersOfTokens? depth members tail
      return ⟨found.value, found.rest, Nat.lt_trans found.shorter shorter⟩
    | _ => none
  | _ => none
termination_by 2 * tokens.length + 1
decreasing_by all_goals simp only [List.length_cons]; omega

end

/-- The value that a text is. -/
def ofText? (text : String) : Option Value := do
  let found ← ofTokens? depthLimit (← Token.scan? text.toList)
  match found.rest with
  | [] => return found.value
  | _ => none

end Value

end SingleFile.Json
