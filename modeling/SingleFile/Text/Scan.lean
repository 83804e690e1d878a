/-!
# Scanning text from the left

Readers in this library work on the characters that remain, a `List Char`, and
return what they recognised together with the remaining characters after it. This
module holds the two searches that they share: recognising a fixed mark, and
cutting the text at the first place where something is recognised. Each comes
with a bound on what remains, so that reading loops end.
-/

namespace SingleFile.Text

/-- What follows `mark` when the text begins with it. -/
def after? : (mark text : List Char) → Option (List Char)
  | [], text => some text
  | _ :: _, [] => none
  | m :: mark, c :: text => if m = c then after? mark text else none

/-- The text before the first place where `stop?` recognises something, with the
text that `stop?` leaves there. -/
def cutAt? (stop? : List Char → Option (List Char)) :
    List Char → Option (List Char × List Char)
  | [] => (stop? []).map fun rest => ([], rest)
  | c :: text =>
    match stop? (c :: text) with
    | some rest => some ([], rest)
    | none => (cutAt? stop? text).map fun (before, rest) => (c :: before, rest)

/-- The text before and after the first occurrence of `mark`. -/
def cut? (mark text : List Char) : Option (List Char × List Char) :=
  cutAt? (after? mark) text

/-- The part of `text` that precedes its suffix `rest`. -/
def upTo (text rest : List Char) : List Char :=
  text.take (text.length - rest.length)

@[simp] theorem after?_append (mark rest : List Char) :
    after? mark (mark ++ rest) = some rest := by
  induction mark with
  | nil => rfl
  | cons m mark ih => simp [after?, ih]

/-- A mark is recognised exactly where the text begins with it. -/
theorem after?_eq_some_iff {mark text rest : List Char} :
    after? mark text = some rest ↔ text = mark ++ rest := by
  induction mark generalizing text with
  | nil => simp [after?]
  | cons m mark ih =>
      cases text with
      | nil => simp [after?]
      | cons c text =>
          by_cases same : m = c
          · simp [after?, same, ih]
          · simp [after?, same, Ne.symm same]

/-- Cutting leaves no more than the text when `stop?` leaves no more than it is
given. -/
theorem length_le_of_cutAt? {stop? : List Char → Option (List Char)}
    (shrinks : ∀ {text rest}, stop? text = some rest → rest.length ≤ text.length)
    {text before rest : List Char} (cut : cutAt? stop? text = some (before, rest)) :
    rest.length ≤ text.length := by
  induction text generalizing before with
  | nil =>
      obtain ⟨found, stopped, equal⟩ := Option.map_eq_some_iff.1 cut
      cases equal
      exact shrinks stopped
  | cons c text ih =>
      rw [cutAt?] at cut
      split at cut
      next found stopped =>
        cases cut
        exact shrinks stopped
      next =>
        obtain ⟨⟨before, found⟩, later, equal⟩ := Option.map_eq_some_iff.1 cut
        cases equal
        exact Nat.le_succ_of_le (ih later)

/-- The text is what precedes the first mark, the mark, and what follows it. -/
theorem eq_append_of_cut? {mark text before rest : List Char}
    (cut : cut? mark text = some (before, rest)) : text = before ++ mark ++ rest := by
  induction text generalizing before with
  | nil =>
      obtain ⟨found, stopped, equal⟩ := Option.map_eq_some_iff.1 cut
      cases equal
      simpa using after?_eq_some_iff.1 stopped
  | cons c text ih =>
      rw [cut?, cutAt?] at cut
      split at cut
      next found stopped =>
        cases cut
        simpa using after?_eq_some_iff.1 stopped
      next =>
        obtain ⟨⟨before, found⟩, later, equal⟩ := Option.map_eq_some_iff.1 cut
        cases equal
        simpa using ih later

theorem length_le_of_cut? {mark text before rest : List Char}
    (cut : cut? mark text = some (before, rest)) : rest.length ≤ text.length := by
  have lengths := congrArg List.length (eq_append_of_cut? cut)
  simp only [List.length_append] at lengths
  omega

theorem length_dropWhile_le (holds : Char → Bool) (text : List Char) :
    (text.dropWhile holds).length ≤ text.length :=
  (List.dropWhile_suffix holds).length_le

end SingleFile.Text
