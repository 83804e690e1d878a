import SingleFile.Proofs.Markup.Written

/-!
# Forms of a directive's name

A text that is split as the name of a directive need not look like one: characters that
have no place in a name are dropped, an argument can be empty and a bracket unclosed. What
the split gives can always be printed, in the explicit form, and that form is split into the
same parts.

A shorthand is no more than another mark in front of the argument. The mark is dropped
where an argument follows it, and where none does, so that the two forms agree also on texts
that are no names.

Main statements: `DirectiveName.ofString_render` and `DirectiveName.ofString_shorthand`.
-/

namespace SingleFile.Markup

open SingleFile.Text

namespace DirectiveName

/-! ## The explicit form -/

/-- The parts of a name are printed in the explicit form, whatever they are. -/
theorem render_toProperty (parts : DirectiveName) :
    (parts.toProperty none).render = .ok (String.ofList parts.written) := by
  cases parts with
  | mk name arg modifiers =>
      have written : renderArgument (arg.map Argument.toNode) =
          .ok (String.ofList ((arg.map Argument.written).getD [])) := by
        cases arg with
        | none => rfl
        | some arg => exact renderArgument_toNode arg
      rw [toProperty, Property.render, written]
      apply ok_eq_ofList
      simp [renderModifiers_eq, DirectiveName.written, writtenTail]

/-- Every text is printed as the name of a directive, and what is printed is split into the
same parts. -/
theorem ofString_render (raw : String) :
    ∃ text, (Node.property ((ofString raw).toProperty none)).render = .ok text ∧
      ofString text = ofString raw := by
  refine ⟨String.ofList (ofString raw).written, ?_, ?_⟩
  · rw [Node.render]
    exact render_toProperty (ofString raw)
  · rw [ofString, String.toList_ofList]
    exact ofChars_written (wellFormed_ofChars raw.toList)

/-! A bracket that is never closed is no argument, and its text becomes modifiers. -/

example : ofString ":[a..b" = ⟨"bind", none, ["[a", "b"]⟩ ∧
    ofString "v-bind.[a.b" = ⟨"bind", none, ["[a", "b"]⟩ := by decide

/-! ## Shorthands -/

/-- What follows a mark is split in the same way after every mark. -/
theorem ofTail_mark {explicit other : Bool} {mark sign : Char}
    (marks : opensArgument explicit mark = true) (signs : opensArgument other sign = true)
    (name : String) (implied : List String) (body : List Char) :
    ofTail name explicit implied (mark :: body) = ofTail name other implied (sign :: body) := by
  simp only [ofTail, readArgument, marks, signs, if_true]
  cases Argument.read? body with
  | none => rfl
  | some found => rfl

/-- An explicit name ends at the mark after it. -/
theorem ofString_explicit {name : String} (named : ∀ c ∈ name.toList, isNameChar c = true)
    (body : String) :
    ofString ("v-" ++ name ++ ":" ++ body) = ofTail name true [] (':' :: body.toList) := by
  have stops : ∀ c ∈ (':' :: body.toList).head?, isNameChar c = false :=
    forall_head?_cons (by decide) body.toList
  have taken := takeWhile_append named stops
  have dropped := dropWhile_append named stops
  simp [ofString, ofChars, after?, taken, dropped]

/-- A shorthand stands for its name and the mark of an argument. -/
theorem ofString_mark {mark : Char} (marks : opensArgument false mark = true) (body : String) :
    ofString (String.singleton mark ++ body) =
      ofTail (ofShorthand [mark]) true (impliedModifiers [mark]) (':' :: body.toList) := by
  have known : mark = ':' ∨ mark = '@' ∨ mark = '#' ∨ mark = '.' := by
    simpa [opensArgument, or_assoc] using marks
  rw [ofString, String.toList_append, String.toList_singleton, List.singleton_append]
  have signs : opensArgument true ':' = true := by decide
  rcases known with rfl | rfl | rfl | rfl <;> exact ofTail_mark marks signs _ _ body.toList

/-- Implied modifiers come before those that are written. -/
theorem ofTail_implied (name : String) (explicit : Bool) (implied : List String)
    (tail : List Char) :
    ofTail name explicit implied tail =
      { ofTail name explicit [] tail with
        modifiers := implied ++ (ofTail name explicit [] tail).modifiers } := rfl

/-- A shorthand and the explicit name that it stands for are split alike, whatever follows. A
leading dot is short for a binding with a first modifier. -/
theorem ofString_shorthand (body : String) :
    ofString (":" ++ body) = ofString ("v-bind:" ++ body) ∧
    ofString ("@" ++ body) = ofString ("v-on:" ++ body) ∧
    ofString ("#" ++ body) = ofString ("v-slot:" ++ body) ∧
    ofString ("." ++ body) =
      { ofString ("v-bind:" ++ body) with
        modifiers := "prop" :: (ofString ("v-bind:" ++ body)).modifiers } := by
  have bind : ofString ("v-bind:" ++ body) = ofTail "bind" true [] (':' :: body.toList) := by
    simpa only [String.reduceAppend] using @ofString_explicit "bind" (by decide) body
  have on : ofString ("v-on:" ++ body) = ofTail "on" true [] (':' :: body.toList) := by
    simpa only [String.reduceAppend] using @ofString_explicit "on" (by decide) body
  have slot : ofString ("v-slot:" ++ body) = ofTail "slot" true [] (':' :: body.toList) := by
    simpa only [String.reduceAppend] using @ofString_explicit "slot" (by decide) body
  refine ⟨?_, ?_, ?_, ?_⟩
  · rw [bind]
    exact @ofString_mark ':' (by decide) body
  · rw [on]
    exact @ofString_mark '@' (by decide) body
  · rw [slot]
    exact @ofString_mark '#' (by decide) body
  · rw [bind]
    exact (@ofString_mark '.' (by decide) body).trans (ofTail_implied "bind" true ["prop"] _)

end DirectiveName

end SingleFile.Markup
