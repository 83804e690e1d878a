import SingleFile.Markup.Path
import SingleFile.Proofs.Text.Search

/-!
# A shown path names one path

Every step of a path is shown as a dot, a name and, where the step has one, an index
in brackets. No name holds a dot or a bracket and no index holds a dot, so a shown
path falls apart at its dots into the steps, and each step at its bracket into its
name and its index.

Main statement: `TreePath.render_inj`.
-/

namespace SingleFile.Markup

open SingleFile.Text

namespace Step

/-- The name of a step, as it is shown. -/
def label : Step → String
  | .child _ => "children"
  | .prop _ => "props"
  | .value => "value"
  | .content => "content"
  | .arg => "arg"
  | .exp => "exp"
  | .modifier _ => "modifiers"

/-- The index of a step among the parts with its name, where there are several. -/
def index? : Step → Option Nat
  | .child index | .prop index | .modifier index => some index
  | .value | .content | .arg | .exp => none

/-- An index in brackets; nothing without an index. -/
def writtenIndex : Option Nat → List Char
  | none => []
  | some index => '[' :: (Nat.toDigits 10 index ++ [']'])

/-- A step as it is shown after its dot. -/
def written (step : Step) : List Char := step.label.toList ++ writtenIndex step.index?

theorem toList_render (step : Step) : step.render.toList = '.' :: step.written := by
  cases step <;> simp [render, written, label, index?, writtenIndex, Nat.toString_eq_repr]

theorem toList_renderAll_cons (step : Step) (steps : List Step) :
    (renderAll (step :: steps)).toList = '.' :: (step.written ++ (renderAll steps).toList) := by
  simp [renderAll, toList_render]

/-- A step is known by its name and its index. -/
theorem eq_of_label_of_index? {step other : Step} (label : step.label = other.label)
    (index : step.index? = other.index?) : step = other := by
  cases step <;> cases other <;> simp_all [Step.label, index?]

theorem isAlpha_of_mem_label {step : Step} {c : Char} (member : c ∈ step.label.toList) :
    c.isAlpha = true := by
  have letters : step.label.toList.all Char.isAlpha = true := by
    cases step <;> simp [label]
  exact List.all_eq_true.1 letters c member

theorem ne_of_isAlpha {c mark : Char} (letter : c.isAlpha = true) (other : mark.isAlpha = false) :
    c ≠ mark := by
  rintro rfl
  rw [letter] at other
  cases other

/-- An index is shown in digits, which give it back. -/
theorem writtenIndex_inj {index other : Option Nat} :
    writtenIndex index = writtenIndex other ↔ index = other := by
  refine ⟨fun equal => ?_, congrArg writtenIndex⟩
  cases index with
  | none =>
      cases other with
      | none => rfl
      | some other => cases equal
  | some index =>
      cases other with
      | none => cases equal
      | some other =>
          have digits : Nat.toDigits 10 index = Nat.toDigits 10 other :=
            List.append_cancel_right (List.cons.inj equal).2
          have same := congrArg (Nat.ofDigitChars 10 · 0) digits
          simpa only [Nat.ofDigitChars_ten_toDigits, Option.some.injEq] using same

theorem head?_writtenIndex (index : Option Nat) :
    ∀ c ∈ (writtenIndex index).head?, (c != '[') = false := by
  cases index with
  | none => simp [writtenIndex]
  | some index => simp [writtenIndex]

theorem ne_dot_of_mem_written {step : Step} {c : Char} (member : c ∈ step.written) : c ≠ '.' := by
  rcases List.mem_append.1 member with named | indexed
  · exact ne_of_isAlpha (isAlpha_of_mem_label named) (by decide)
  · cases found : step.index? with
    | none => simp [found, writtenIndex] at indexed
    | some index =>
        rw [found, writtenIndex, List.mem_cons, List.mem_append, List.mem_singleton] at indexed
        rcases indexed with rfl | digit | rfl
        · decide
        · rintro rfl
          exact absurd (Nat.isDigit_of_mem_toDigits (by decide) (by decide) digit) (by decide)
        · decide

/-- A step is known by what is shown after its dot: the name ends at the bracket. -/
theorem written_inj {step other : Step} : step.written = other.written ↔ step = other := by
  refine ⟨fun equal => ?_, congrArg written⟩
  have unbracketed (step : Step) : ∀ c ∈ step.label.toList, (c != '[') = true := by
    intro c member
    have bracket : '['.isAlpha = false := by decide
    simpa using ne_of_isAlpha (isAlpha_of_mem_label member) bracket
  have parts := append_inj_of_run (unbracketed step) (unbracketed other)
    (head?_writtenIndex step.index?) (head?_writtenIndex other.index?) equal
  exact eq_of_label_of_index? (String.toList_inj.1 parts.1) (writtenIndex_inj.1 parts.2)

theorem head?_renderAll (steps : List Step) :
    ∀ c ∈ (renderAll steps).toList.head?, (c != '.') = false := by
  cases steps with
  | nil => simp [renderAll]
  | cons step steps => simp [toList_renderAll_cons]

/-- Steps shown one after the other are known by the whole: each ends at the next dot. -/
theorem renderAll_inj {steps others : List Step} :
    renderAll steps = renderAll others ↔ steps = others := by
  refine ⟨fun equal => ?_, congrArg renderAll⟩
  have dotless (step : Step) : ∀ c ∈ step.written, (c != '.') = true := by
    intro c member
    simpa using ne_dot_of_mem_written member
  induction steps generalizing others with
  | nil =>
      cases others with
      | nil => rfl
      | cons other others =>
          have shown := congrArg String.toList equal
          rw [toList_renderAll_cons] at shown
          cases shown
  | cons step steps ih =>
      cases others with
      | nil =>
          have shown := congrArg String.toList equal
          rw [toList_renderAll_cons] at shown
          cases shown
      | cons other others =>
          have shown := congrArg String.toList equal
          rw [toList_renderAll_cons, toList_renderAll_cons] at shown
          have parts := append_inj_of_run (dotless step) (dotless other) (head?_renderAll steps)
            (head?_renderAll others) (List.cons.inj shown).2
          rw [written_inj.1 parts.1, ih (String.toList_inj.1 parts.2)]

end Step

/-- Two paths are shown alike only if they are the same. -/
theorem TreePath.render_inj {path other : TreePath} :
    path.render = other.render ↔ path = other := by
  rw [TreePath.render, TreePath.render, String.append_right_inj, Step.renderAll_inj]

end SingleFile.Markup
