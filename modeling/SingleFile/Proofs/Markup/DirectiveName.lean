import SingleFile.Markup.Directive
import SingleFile.Proofs.Text.Search

/-!
# The explicit form of a directive's name

Splitting a written name gives parts that fit together again: the explicit form
of the parts splits into the same parts. The parts that splitting can give are
described by `DirectiveName.WellFormed`, and on such parts the explicit form is
read back whole.
-/

namespace SingleFile.Markup

open SingleFile.Text

namespace Argument

/-- An argument with its marker, as it stands in an explicit name. -/
def written (arg : Argument) : List Char :=
  if arg.isStatic then ':' :: arg.content.toList
  else ':' :: '[' :: (arg.content.toList ++ [']'])

/-- A plain argument is not empty, ends before the first `.` and is not taken for a
bracketed one; a bracketed argument ends at its first `]`. -/
def WellFormed (arg : Argument) : Prop :=
  if arg.isStatic then
    arg.content ≠ "" ∧ '.' ∉ arg.content.toList ∧ arg.content.toList.head? ≠ some '['
  else ']' ∉ arg.content.toList

instance (arg : Argument) : Decidable arg.WellFormed := by
  unfold WellFormed
  infer_instance

/-- A plain argument is read up to the dot after it. -/
theorem read?_plain {content rest : List Char} (proper : content ≠ [])
    (undotted : '.' ∉ content) (plain : content.head? ≠ some '[')
    (ends : ∀ c ∈ rest.head?, c = '.') :
    read? (content ++ rest) = some (⟨String.ofList content, true⟩, rest) := by
  have every : ∀ c ∈ content, (c != '.') = true := by
    intro c member
    simp only [bne_iff_ne, ne_eq]
    rintro rfl
    exact undotted member
  have stops : ∀ c ∈ rest.head?, (c != '.') = false := by
    intro c head
    simp [ends c head]
  have taken := takeWhile_append every stops
  have dropped := dropWhile_append every stops
  cases content with
  | nil => exact absurd rfl proper
  | cons c content =>
      have unbracketed : c ≠ '[' := by simpa using plain
      rw [List.cons_append] at taken dropped ⊢
      rw [read?]
      · simp only [taken, dropped]
      · simpa using unbracketed

theorem read?_bracketed {content : List Char} (unclosed : ']' ∉ content) (rest : List Char) :
    read? ('[' :: (content ++ ']' :: rest)) = some (⟨String.ofList content, false⟩, rest) := by
  rw [read?, cut?_singleton_append unclosed]
  rfl

/-- The argument that is read is well formed. -/
theorem wellFormed_of_read? {body rest : List Char} {arg : Argument}
    (read : read? body = some (arg, rest)) : arg.WellFormed := by
  unfold read? at read
  split at read
  next inner =>
    obtain ⟨⟨content, tail⟩, cut, equal⟩ := Option.map_eq_some_iff.1 read
    cases equal
    simpa [WellFormed] using not_mem_of_cut? cut
  next plain =>
    split at read
    next => simp at read
    next content proper =>
      cases read
      have undotted : '.' ∉ body.takeWhile (· != '.') := by
        intro member
        simpa using holds_of_mem_takeWhile member
      have head : (body.takeWhile (· != '.')).head? ≠ some '[' := by
        cases body with
        | nil => simp
        | cons c body =>
            rw [List.head?_takeWhile]
            intro bracket
            simp only [List.head?_cons, Option.filter_eq_some_iff, Option.some.injEq] at bracket
            exact plain body (by rw [bracket.1])
      simp only [WellFormed, String.toList_ofList, if_true]
      refine ⟨?_, undotted, head⟩
      intro empty
      apply proper
      simpa using congrArg String.toList empty

end Argument

namespace DirectiveName

/-- Modifiers, each after a dot. -/
def writtenModifiers (modifiers : List String) : List Char :=
  modifiers.flatMap fun modifier => '.' :: modifier.toList

/-- The argument and the modifiers, as they follow an explicit name. -/
def writtenTail (parts : DirectiveName) : List Char :=
  (parts.arg.map Argument.written).getD [] ++ writtenModifiers parts.modifiers

/-- The explicit form of a directive's name. -/
def written (parts : DirectiveName) : List Char :=
  'v' :: '-' :: (parts.name.toList ++ parts.writtenTail)

/-- What the parts of a directive's name can be. -/
structure WellFormed (parts : DirectiveName) : Prop where
  name : ∀ c ∈ parts.name.toList, isNameChar c = true
  arg : ∀ arg ∈ parts.arg, arg.WellFormed
  modifiers : ∀ modifier ∈ parts.modifiers, modifier ≠ "" ∧ '.' ∉ modifier.toList

theorem head?_writtenModifiers (modifiers : List String) :
    ∀ c ∈ (writtenModifiers modifiers).head?, c = '.' := by
  cases modifiers with
  | nil => simp [writtenModifiers]
  | cons modifier modifiers => simp [writtenModifiers]

theorem head?_writtenTail (parts : DirectiveName) :
    ∀ c ∈ parts.writtenTail.head?, c = ':' ∨ c = '.' := by
  intro c head
  rw [writtenTail] at head
  cases present : parts.arg with
  | none =>
      rw [present] at head
      exact .inr (head?_writtenModifiers parts.modifiers c head)
  | some arg =>
      rw [present] at head
      simp only [Option.map_some, Option.getD_some, Argument.written] at head
      left
      split at head <;> simpa [eq_comm] using head

/-- Modifiers are read back from the dots between them. -/
theorem readModifiers_writtenModifiers {modifiers : List String}
    (proper : ∀ modifier ∈ modifiers, modifier ≠ "" ∧ '.' ∉ modifier.toList) :
    readModifiers (writtenModifiers modifiers) = modifiers := by
  induction modifiers with
  | nil => simp [writtenModifiers, readModifiers]
  | cons modifier modifiers ih =>
      obtain ⟨nonempty, undotted⟩ := proper modifier (by simp)
      have later := ih fun other member => proper other (by simp [member])
      have kept : modifier.toList ≠ [] := by simpa using nonempty
      cases modifiers with
      | nil =>
          simp [writtenModifiers, readModifiers, List.splitOn_eq_singleton undotted, kept]
      | cons next modifiers =>
          simp only [writtenModifiers, readModifiers, List.flatMap_cons, List.cons_append,
            List.drop_succ_cons, List.drop_zero] at later ⊢
          rw [List.splitOn_append_cons_self_of_not_mem undotted]
          rw [List.filter_cons_of_pos (by simpa using kept), List.map_cons, later,
            String.ofList_toList]

/-- The argument is read back, and the modifiers are left. -/
theorem readArgument_writtenTail {parts : DirectiveName} (wellFormed : parts.WellFormed) :
    readArgument true parts.writtenTail = (parts.arg, writtenModifiers parts.modifiers) := by
  have dotted := head?_writtenModifiers parts.modifiers
  cases present : parts.arg with
  | none =>
      rw [writtenTail, present, Option.map_none, Option.getD_none, List.nil_append]
      cases shape : writtenModifiers parts.modifiers with
      | nil => rfl
      | cons c rest =>
          rw [shape] at dotted
          simp [readArgument, opensArgument, dotted c rfl]
  | some arg =>
      have argOk := wellFormed.arg arg present
      rw [writtenTail, present, Option.map_some, Option.getD_some]
      cases arg with
      | mk content isStatic =>
          cases isStatic with
          | true =>
              obtain ⟨nonempty, undotted, plain⟩ : content ≠ "" ∧ '.' ∉ content.toList ∧
                content.toList.head? ≠ some '[' := by simpa [Argument.WellFormed] using argOk
              have read := Argument.read?_plain (by simpa using nonempty) undotted plain dotted
              simp [Argument.written, readArgument, opensArgument, read]
          | false =>
              have unclosed : ']' ∉ content.toList := by
                simpa [Argument.WellFormed] using argOk
              have read := Argument.read?_bracketed unclosed (writtenModifiers parts.modifiers)
              simp [Argument.written, readArgument, opensArgument, read]

/-- The explicit form of well-formed parts splits into these parts. -/
theorem ofChars_written {parts : DirectiveName} (wellFormed : parts.WellFormed) :
    ofChars parts.written = parts := by
  have stops : ∀ c ∈ parts.writtenTail.head?, isNameChar c = false := by
    intro c head
    rcases head?_writtenTail parts c head with rfl | rfl <;> decide
  have taken := takeWhile_append wellFormed.name stops
  have dropped := dropWhile_append wellFormed.name stops
  simp only [ofChars, written, after?, if_true, taken, dropped, ofTail,
    readArgument_writtenTail wellFormed, readModifiers_writtenModifiers wellFormed.modifiers,
    String.ofList_toList, List.nil_append]

theorem not_mem_of_mem_splitOn {c : Char} {text piece : List Char}
    (member : piece ∈ text.splitOn c) : c ∉ piece := by
  induction text generalizing piece with
  | nil => simp_all
  | cons d text ih =>
      rw [List.splitOn_cons_eq_if_modifyHead] at member
      split at member
      next =>
        rcases List.mem_cons.1 member with rfl | later
        · simp
        · exact ih later
      next differs =>
        cases pieces : text.splitOn c with
        | nil => exact absurd pieces (List.splitOn_ne_nil c text)
        | cons first others =>
            rw [pieces, List.modifyHead_cons] at member
            rcases List.mem_cons.1 member with rfl | later
            · have absent : c ∉ first := ih (by simp [pieces])
              have other : c ≠ d := fun equal => differs (by simp [equal])
              simp [absent, other]
            · exact ih (by simp [pieces, later])

theorem proper_of_mem_readModifiers {tail : List Char} {modifier : String}
    (member : modifier ∈ readModifiers tail) : modifier ≠ "" ∧ '.' ∉ modifier.toList := by
  simp only [readModifiers, List.mem_map, List.mem_filter] at member
  obtain ⟨piece, ⟨split, kept⟩, rfl⟩ := member
  refine ⟨?_, by simpa using not_mem_of_mem_splitOn split⟩
  simpa using kept

theorem wellFormed_of_readArgument {explicit : Bool} {tail rest : List Char} {arg : Argument}
    (read : readArgument explicit tail = (some arg, rest)) : arg.WellFormed := by
  unfold readArgument at read
  split at read
  next => simp at read
  next =>
    split at read
    next =>
      split at read
      next found =>
        cases read
        exact Argument.wellFormed_of_read? found
      next => simp at read
    next => simp at read

/-- Splitting any text gives well-formed parts. -/
theorem wellFormed_ofChars (raw : List Char) : (ofChars raw).WellFormed := by
  have arguments (name : String) (explicit : Bool) (implied : List String) (tail : List Char) :
      ∀ arg ∈ (ofTail name explicit implied tail).arg, arg.WellFormed := by
    intro arg present
    have read : readArgument explicit tail = (some arg, (readArgument explicit tail).2) :=
      Prod.ext present rfl
    exact wellFormed_of_readArgument read
  have shorthand : ∀ c ∈ (ofShorthand raw).toList, isNameChar c = true := by
    unfold ofShorthand
    split <;> decide
  have implied : ∀ modifier ∈ impliedModifiers raw, modifier ≠ "" ∧ '.' ∉ modifier.toList := by
    unfold impliedModifiers
    split <;> decide
  unfold ofChars
  split
  next body explicit =>
    refine ⟨?_, arguments _ _ _ _, ?_⟩
    · intro c member
      exact holds_of_mem_takeWhile (by simpa [ofTail] using member)
    · intro modifier member
      exact proper_of_mem_readModifiers (by simpa [ofTail] using member)
  next =>
    refine ⟨by simpa [ofTail] using shorthand, arguments _ _ _ _, ?_⟩
    intro modifier member
    simp only [ofTail, List.mem_append] at member
    rcases member with member | member
    · exact implied modifier member
    · exact proper_of_mem_readModifiers member

end DirectiveName

end SingleFile.Markup
