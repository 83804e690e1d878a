import SingleFile.Proofs.Markup.Lexing

/-!
# Names that are read to their end

Whether the names of properties are read back can be told from their characters. A bracket
that is not closed takes in what follows the name; outside of brackets a name is ended by a
blank, a quote, an equals sign or a `>`, and by a slash before a `>`. The slash is the only
one of them for which it matters what is written after the name.

Main statement: `Property.namesWhole_iff`.
-/

namespace SingleFile.Markup

open SingleFile.Text

namespace Property

/-- Every bracket that opens in the text is followed by one that closes. -/
def BracketsClosed (text : List Char) : Prop :=
  ∀ front back, text = front ++ '[' :: back → ']' ∈ back

/-- A name that does not end before its last character: its brackets are closed, and no
character outside of them ends a name. -/
structure NameWhole (name : List Char) : Prop where
  closed : BracketsClosed name
  goesOn : ∀ front c back, name = front ++ c :: back → BracketsClosed front →
    endsName c back = false

theorem bracketsClosed_nil : BracketsClosed [] := by
  intro front back equal
  simp at equal

theorem bracketsClosed_concat_iff {text : List Char} {c : Char} :
    BracketsClosed (text ++ [c]) ↔ c = ']' ∨ c ≠ '[' ∧ BracketsClosed text := by
  constructor
  · intro closed
    by_cases closing : c = ']'
    · exact .inl closing
    · refine .inr ⟨?_, fun front back equal => ?_⟩
      · rintro rfl
        simpa using closed text [] rfl
      · have later := closed front (back ++ [c]) (by simp [equal])
        simpa [Ne.symm closing] using later
  · intro closed front back equal
    rcases List.eq_nil_or_concat back with rfl | ⟨before, d, rfl⟩
    · have last := (List.append_inj' equal rfl).2
      rcases closed with rfl | ⟨other, -⟩
      · simp at last
      · simp [other] at last
    · have parts : text ++ [c] = (front ++ '[' :: before) ++ [d] := by simp [equal]
      obtain ⟨rfl, same⟩ := List.append_inj' parts rfl
      cases same
      rcases closed with rfl | ⟨-, closed⟩
      · simp
      · simp [closed front before rfl]

/-- A name is read to its end, where a character follows that ends names, exactly when its
brackets are closed and no character outside of them ends it. What stands before the name
tells whether a bracket is open. -/
theorem readName_eq_iff {bracketed : Bool} {before name rest : List Char} {next : Char}
    (ends : endsName next rest = true) (bracket : bracketed = false ↔ BracketsClosed before) :
    readName bracketed (name ++ next :: rest) = (name, next :: rest) ↔
      BracketsClosed (before ++ name) ∧ ∀ front c back, name = front ++ c :: back →
        BracketsClosed (before ++ front) → endsName c (back ++ next :: rest) = false := by
  induction name generalizing bracketed before with
  | nil =>
      rw [List.nil_append, List.append_nil, readName, ends, Bool.and_true, ← bracket]
      cases bracketed <;> simp
  | cons c name ih =>
      have after : (if c = '[' then true else if c = ']' then false else bracketed) = false ↔
          BracketsClosed (before ++ [c]) := by
        rw [bracketsClosed_concat_iff, ← bracket]
        by_cases opening : c = '['
        · simp [opening]
        · by_cases closing : c = ']' <;> simp [opening, closing]
      have later := ih after
      rw [List.append_assoc, List.singleton_append] at later
      rw [List.cons_append, readName]
      split
      next stops =>
        simp only [Bool.and_eq_true, Bool.not_eq_true'] at stops
        constructor
        · simp
        · rintro ⟨-, plain⟩
          have here := plain [] c name rfl (by simpa using bracket.1 stops.1)
          simp [stops.2] at here
      next goesOn =>
        have head : BracketsClosed before → endsName c (name ++ next :: rest) = false := by
          intro closed
          simpa [bracket.2 closed] using goesOn
        have whole (read : List Char × List Char) :
            (c :: read.1, read.2) = (c :: name, next :: rest) ↔ read = (name, next :: rest) := by
          simp [Prod.ext_iff]
        rw [whole, later]
        refine and_congr_right fun _ => ?_
        constructor
        · intro plain front d back equal closed
          cases front with
          | nil =>
              cases equal
              exact head (by simpa using closed)
          | cons e front =>
              cases equal
              exact plain front d back rfl (by simpa using closed)
        · intro plain front d back equal closed
          exact plain (c :: front) d back (by rw [equal]; rfl) (by simpa using closed)

theorem endsName_append (c : Char) {next : Char} (other : next ≠ '>') (back rest : List Char) :
    endsName c (back ++ next :: rest) = endsName c back := by
  cases back <;> simp [endsName, other]

/-- Before an equals sign or a blank a name is read back when it is whole. -/
theorem readName_whole_iff {name rest : List Char} {next : Char} (ends : endsName next rest = true)
    (other : next ≠ '>') :
    readName false (name ++ next :: rest) = (name, next :: rest) ↔ NameWhole name := by
  rw [readName_eq_iff ends (by simpa using bracketsClosed_nil)]
  simp only [List.nil_append, endsName_append _ other]
  exact ⟨fun ⟨closed, goesOn⟩ => ⟨closed, goesOn⟩, fun ⟨closed, goesOn⟩ => ⟨closed, goesOn⟩⟩

theorem endsName_append_end {c : Char} {back rest : List Char} :
    endsName c (back ++ '>' :: rest) = false ↔
      endsName c back = false ∧ (back = [] → c ≠ '/') := by
  cases back with
  | nil => by_cases slash : c = '/' <;> simp [endsName, slash]
  | cons d back => simp [endsName]

/-- Before the end of a tag a name must not end in a slash either. -/
theorem readName_whole_end_iff {name rest : List Char} :
    readName false (name ++ '>' :: rest) = (name, '>' :: rest) ↔
      NameWhole name ∧ name.getLast? ≠ some '/' := by
  rw [readName_eq_iff rfl (by simpa using bracketsClosed_nil)]
  simp only [List.nil_append, endsName_append_end]
  constructor
  · rintro ⟨closed, goesOn⟩
    refine ⟨⟨closed, fun front c back equal outside => (goesOn front c back equal outside).1⟩, ?_⟩
    intro last
    obtain ⟨front, rfl⟩ := List.getLast?_eq_some_iff.1 last
    have outside : BracketsClosed front := by
      simpa using bracketsClosed_concat_iff.1 closed
    exact (goesOn front '/' [] rfl outside).2 rfl rfl
  · rintro ⟨⟨closed, goesOn⟩, unslashed⟩
    refine ⟨closed, fun front c back equal outside => ⟨goesOn front c back equal outside, ?_⟩⟩
    rintro rfl rfl
    exact unslashed (by simp [equal])

/-- A name is read back before what is written after it in the tag when it is whole and,
at the end of the tag, does not end in a slash. -/
theorem readName_following_iff (name : List Char) (bound : Option (List Char))
    (props : List Property) (selfClosing : Bool) :
    let following := writtenBinding bound ++ (writtenAll props ++ Token.writtenEnd selfClosing)
    readName false (name ++ following) = (name, following) ↔
      NameWhole name ∧
        (selfClosing = false → props = [] → bound = none → name.getLast? ≠ some '/') := by
  have before {next : Char} (rest : List Char) (ends : endsName next rest = true)
      (other : next ≠ '>') {last : Prop} (never : last) :
      readName false (name ++ next :: rest) = (name, next :: rest) ↔ NameWhole name ∧ last := by
    rw [readName_whole_iff ends other, and_iff_left never]
  cases bound with
  | some value => exact before _ rfl (by decide) (by simp)
  | none =>
      cases props with
      | cons property props => exact before _ rfl (by decide) (by simp)
      | nil =>
          cases selfClosing with
          | true => exact before _ rfl (by decide) (by simp)
          | false => exact readName_whole_end_iff.trans (and_congr_right fun _ => by simp)

/-- In an opening tag those names are read back that are whole, and do not end in a slash
before the end of the tag. -/
theorem namesWhole_iff {selfClosing : Bool} {props : List Property} :
    NamesWhole selfClosing props ↔
      (∀ property ∈ props, NameWhole property.writtenName) ∧
        (selfClosing = false → ∀ property ∈ props.getLast?, property.bound? = none →
          property.writtenName.getLast? ≠ some '/') := by
  induction props with
  | nil => simp [NamesWhole]
  | cons property props ih =>
      refine (and_congr (readName_following_iff _ property.bound? props selfClosing) ih).trans ?_
      rw [List.forall_mem_cons]
      cases props with
      | nil => simp
      | cons next props => simp [and_assoc]

end Property

end SingleFile.Markup
