import SingleFile.Proofs.Markup.ByteScan

/-!
# Names of directives and properties, by offset

A directive's name is split by offset as it is split by characters: every cut is next to an
ASCII character or at the end of the name. The name of a property, which may hold any
characters, also ends between two of them.
-/

namespace SingleFile.Markup.ByteScan

open SingleFile.Text

/-! ## Names of directives -/

theorem toNat_lt_of_isNameChar {c : Char} (named : DirectiveName.isNameChar c = true) :
    c.toNat < 0x80 := by
  simp only [DirectiveName.isNameChar, Bool.or_eq_true, decide_eq_true_eq] at named
  rcases named with named | rfl
  · exact toNat_lt_of_isAlphanum named
  · decide

theorem toNat_lt_of_opensArgument {explicit : Bool} {c : Char}
    (opens : DirectiveName.opensArgument explicit c = true) : c.toNat < 0x80 := by
  simp only [DirectiveName.opensArgument, Bool.or_eq_true, Bool.and_eq_true, decide_eq_true_eq]
    at opens
  rcases opens with rfl | ⟨-, (rfl | rfl) | rfl⟩ <;> decide

/-- An argument without brackets goes up to the first dot. -/
theorem argumentSize_plain {body : List Char} (plain : body.head? ≠ some '[') :
    argumentSize (String.ofList body) = (units (body.takeWhile (· != '.'))).length := by
  have unbracketed : startsWith (String.ofList body) "[" = false := by
    rw [startsWith_ofList (by decide), show "[".toList = ['['] from rfl,
      after?_singleton_of_ne plain, Option.isSome_none]
  rw [argumentSize, unbracketed, if_neg Bool.false_ne_true, find?_ofList (by decide) (by decide),
    show ".".toList = ['.'] from rfl, cut?_singleton]
  split
  next => rfl
  next absent =>
    have dotless : ∀ c ∈ body, (c != '.') = true := by
      intro c member
      rw [bne_iff_ne]
      rintro rfl
      exact absent member
    have whole : body.takeWhile (· != '.') = body := by
      simpa using @takeWhile_append (· != '.') body [] dotless (by simp)
    rw [whole, length_units]
    rfl

/-- An argument in brackets goes up to the first closing one. -/
theorem argumentSize_bracketed (inner : List Char) :
    argumentSize (String.ofList ('[' :: inner)) =
      ((cut? [']'] inner).map fun parts => (units ('[' :: (parts.1 ++ [']']))).length).getD 0 := by
  have bracketed : startsWith (String.ofList ('[' :: inner)) "[" = true := by
    rw [startsWith_ofList (by decide)]
    rfl
  have passed : cut? [']'] ('[' :: inner) =
      (cut? [']'] inner).map fun parts => ('[' :: parts.1, parts.2) :=
    @cut?_pass ']' ['['] (by decide) [] inner
  rw [argumentSize, bracketed, if_pos rfl, find?_ofList (by decide) (by decide),
    show "]".toList = [']'] from rfl, passed, Option.map_map, Option.map_map]
  congr 2
  funext parts
  simp [units_cons_ascii]

theorem head?_ne_of_plain {body : List Char} (plain : ∀ inner, body = '[' :: inner → False) :
    body.head? ≠ some '[' := by
  intro head
  rcases List.head?_eq_some_iff.1 head with ⟨inner, shape⟩
  exact plain inner shape

theorem argumentOf_plain {written : List Char} (plain : written.head? ≠ some '[') :
    argumentOf (String.ofList written) = ⟨String.ofList written, true⟩ := by
  rw [argumentOf, String.toList_ofList]
  split
  next => exact absurd rfl plain
  next => rfl

/-- What is read as an argument is measured in bytes. -/
theorem argumentSize_of_read? {body rest : List Char} {arg : Argument}
    (read : Argument.read? body = some (arg, rest)) :
    ∃ written, written ≠ [] ∧ body = written ++ rest ∧
      argumentSize (String.ofList body) = (units written).length ∧
      argumentOf (String.ofList written) = arg := by
  unfold Argument.read? at read
  split at read
  next inner =>
    obtain ⟨⟨content, tail⟩, cut, equal⟩ := Option.map_eq_some_iff.1 read
    cases equal
    refine ⟨'[' :: (content ++ [']']), by simp, ?_, ?_, ?_⟩
    · simp [eq_append_of_cut? cut]
    · rw [argumentSize_bracketed, cut]
      rfl
    · simp [argumentOf]
  next plain =>
    have first := head?_ne_of_plain plain
    split at read
    next => cases read
    next proper =>
      cases read
      refine ⟨body.takeWhile (· != '.'), ?_, ?_, argumentSize_plain first, ?_⟩
      · exact fun empty => proper empty
      · rw [List.takeWhile_append_dropWhile]
      · apply argumentOf_plain
        cases body with
        | nil => simp
        | cons c body =>
            by_cases dot : c = '.'
            · simp [dot]
            · simpa [dot] using first

theorem argumentSize_of_none {body : List Char} (unread : Argument.read? body = none) :
    argumentSize (String.ofList body) = 0 := by
  unfold Argument.read? at unread
  split at unread
  next inner =>
    rw [argumentSize_bracketed, Option.map_eq_none_iff.1 unread]
    rfl
  next plain =>
    have first := head?_ne_of_plain plain
    split at unread
    next empty => rw [argumentSize_plain first, empty, units_nil, List.length_nil]
    next => cases unread

/-- The argument of a directive is cut out of the bytes of its name. -/
theorem argument?_ofList (explicit : Bool) (tail : List Char) :
    argument? explicit (String.ofList tail) =
      some ((DirectiveName.readArgument explicit tail).1,
        String.ofList (DirectiveName.readArgument explicit tail).2) := by
  have stands := Stands.ofList tail
  rw [argument?, stands.any_unitAt? fun _ => toNat_lt_of_opensArgument]
  cases tail with
  | nil => rfl
  | cons c body =>
      rw [DirectiveName.readArgument, List.head?_cons, Option.any_some]
      split
      next opens =>
        rw [(stands.step (toNat_lt_of_opensArgument opens)).sliceFrom?_eq]
        simp only [Option.bind_eq_bind, Option.bind_some]
        cases read : Argument.read? body with
        | none =>
            rw [argumentSize_of_none read]
            rfl
        | some found =>
            rcases found with ⟨arg, rest⟩
            rcases argumentSize_of_read? read with ⟨written, proper, rfl, size, given⟩
            have whole := Stands.ofList (written ++ rest)
            have slice := whole.slice?_eq
            rw [Nat.zero_add] at slice
            have left := whole.advance.sliceFrom?_eq
            rw [Nat.zero_add] at left
            rw [size, if_pos (length_units_pos proper), slice, left, Option.bind_some,
              Option.bind_some, given]
            rfl
      next => rfl

theorem directiveTail?_ofList (name : String) (explicit : Bool) (implied : List String)
    (tail : List Char) :
    directiveTail? name explicit implied (String.ofList tail) =
      some (DirectiveName.ofTail name explicit implied tail) := by
  rw [directiveTail?, argument?_ofList]
  simp [DirectiveName.ofTail]

theorem ofShorthand_eq (raw : List Char) : DirectiveName.ofShorthand raw =
    if raw.head? = some '@' then "on" else if raw.head? = some '#' then "slot" else "bind" := by
  unfold DirectiveName.ofShorthand
  cases raw <;> split <;> simp_all

theorem impliedModifiers_eq (raw : List Char) : DirectiveName.impliedModifiers raw =
    if raw.head? = some '.' then ["prop"] else [] := by
  unfold DirectiveName.impliedModifiers
  cases raw <;> split <;> simp_all

/-- A shorthand is known by the first byte of the name. -/
theorem shorthand_units (raw : List Char) :
    DirectiveName.ofShorthand (units raw) = DirectiveName.ofShorthand raw ∧
      DirectiveName.impliedModifiers (units raw) = DirectiveName.impliedModifiers raw := by
  have at_ := @head?_units_eq_some_iff '@' (by decide) raw
  have hash := @head?_units_eq_some_iff '#' (by decide) raw
  have dot := @head?_units_eq_some_iff '.' (by decide) raw
  constructor
  · rw [ofShorthand_eq, ofShorthand_eq]
    simp only [at_, hash]
  · rw [impliedModifiers_eq, impliedModifiers_eq]
    simp only [dot]

/-- Splitting a directive's name by bytes never fails, and gives what splitting it by
characters gives. -/
theorem directiveName?_eq (raw : String) :
    directiveName? raw = some (DirectiveName.ofString raw) := by
  have stands := Stands.start raw
  have begins := @startsWith_ofList "v-" (by decide) raw.toList
  rw [String.ofList_toList, show "v-".toList = ['v', '-'] from rfl] at begins
  rw [directiveName?, DirectiveName.ofString, DirectiveName.ofChars, begins]
  cases explicit : after? ['v', '-'] raw.toList with
  | none =>
      have tail := directiveTail?_ofList (DirectiveName.ofShorthand raw.toList) false
        (DirectiveName.impliedModifiers raw.toList) raw.toList
      rw [String.ofList_toList] at tail
      rw [unitsFrom_zero, (shorthand_units _).1, (shorthand_units _).2]
      exact tail
  | some body =>
      have after : Stands raw 2 body := stands.of_after? (by decide) explicit
      have inner := Stands.ofList body
      have uniform := uniform_of_ascii @toNat_lt_of_isNameChar
      rw [Option.isSome_some, if_pos rfl, after.sliceFrom?_eq]
      simp only [Option.bind_eq_bind, Option.bind_some, inner.slice?_skipWhile uniform,
        (inner.skipWhile uniform).sliceFrom?_eq]
      exact directiveTail?_ofList _ true [] _

/-! ## Properties -/

theorem isDirective_eq (name : List Char) : Property.isDirective name =
    (name.head?.any (fun c => c = ':' || c = '.' || c = '@' || c = '#') ||
      ((after? ['v', '-'] name).bind List.head?).any DirectiveName.isNameChar) := by
  unfold Property.isDirective
  split
  next => rfl
  next => rfl
  next => rfl
  next => rfl
  next => simp [after?]
  next noColon noDot noAt noHash noName =>
    have unnamed : (after? ['v', '-'] name).bind List.head? = none := by
      rw [Option.eq_none_iff_forall_ne_some]
      intro c found
      rcases Option.bind_eq_some_iff.1 found with ⟨body, begins, head⟩
      rcases List.head?_eq_some_iff.1 head with ⟨rest, rfl⟩
      exact noName c rest (after?_eq_some_iff.1 begins)
    rw [unnamed]
    cases name <;> simp_all

/-- A directive is known by the first bytes of its name. -/
theorem isDirective_units (name : List Char) :
    Property.isDirective (units name) = Property.isDirective name := by
  have shorthand (c : Char) (held : (c = ':' || c = '.' || c = '@' || c = '#') = true) :
      c.toNat < 0x80 := by
    simp only [Bool.or_eq_true, decide_eq_true_eq] at held
    rcases held with ((rfl | rfl) | rfl) | rfl <;> decide
  rw [isDirective_eq, isDirective_eq, any_head?_units shorthand, after?_units (by decide)]
  cases after? ['v', '-'] name with
  | none => rfl
  | some body =>
      rw [Option.map_some, Option.bind_some, Option.bind_some,
        any_head?_units fun _ => toNat_lt_of_isNameChar]

theorem property?_ofList (name : List Char) (value : Option (List Char)) :
    property? (String.ofList name) (value.map String.ofList) =
      some (Property.ofWritten name value) := by
  rw [property?, unitsFrom_zero, String.toList_ofList, isDirective_units, directiveName?_eq,
    DirectiveName.ofString, String.toList_ofList, Property.ofWritten]
  split
  next =>
    cases value with
    | none => rfl
    | some value =>
        have kept : (some (String.ofList value)).filter (· ≠ "") =
            ((some value).filter (· ≠ [])).map String.ofList := by
          by_cases empty : value = []
          · simp [empty, Option.filter]
          · simp [empty, Option.filter]
        rw [Option.map_some, kept, Option.map_map]
        rfl
  next => cases value <;> rfl

theorem endsName_units {c : Char} (rest : List Char) :
    Property.endsName c (units rest) = Property.endsName c rest := by
  simp only [Property.endsName, @head?_units_eq_some_iff '>' (by decide)]

theorem endsName_eq_false {c : Char} (other : 0x80 ≤ c.toNat) (rest : List Char) :
    Property.endsName c rest = false := by
  have unblank := eq_false_of_other (fun _ => toNat_lt_of_isTagBlank) other
  have plain (d : Char) : d.toNat < 0x80 → c ≠ d := ne_of_other other
  simp [Property.endsName, unblank, plain '=' (by decide), plain '>' (by decide),
    plain '"' (by decide), plain '\'' (by decide), plain '/' (by decide)]

theorem nameEnd_of_unitAt? {source : String} {bracketed : Bool} {offset : Nat} {c : Char}
    (found : unitAt? source offset = some c) :
    nameEnd source bracketed offset =
      if !bracketed && Property.endsName c (unitsFrom source (offset + 1)) then offset
      else nameEnd source (if c = '[' then true else if c = ']' then false else bracketed)
        (offset + 1) := by
  rw [nameEnd]
  split
  next absent => simp [found] at absent
  next d same =>
    rw [found] at same
    cases same
    rfl

/-- Bytes that are no ASCII characters belong to the name and are no brackets. -/
theorem nameEnd_pass {source : String} {bracketed : Bool} {offset : Nat} {run rest : List Char}
    (shape : unitsFrom source offset = run ++ rest) (other : ∀ u ∈ run, 0x80 ≤ u.toNat) :
    nameEnd source bracketed offset = nameEnd source bracketed (offset + run.length) := by
  induction run generalizing offset with
  | nil => rfl
  | cons u run ih =>
      rcases List.forall_mem_cons.1 other with ⟨here, later⟩
      rcases unitsFrom_succ shape with ⟨found, next⟩
      rw [nameEnd_of_unitAt? found, endsName_eq_false here, Bool.and_false,
        if_neg Bool.false_ne_true, if_neg (ne_of_other here (by decide)),
        if_neg (ne_of_other here (by decide)), ih next later, List.length_cons]
      congr 1
      omega

/-- The name of a property ends between two characters, where it ends for characters. -/
theorem nameEnd_eq {source : String} {bracketed : Bool} {offset : Nat} {text : List Char}
    (stands : Stands source offset text) :
    nameEnd source bracketed offset =
      offset + (units (Property.readName bracketed text).1).length := by
  induction text generalizing bracketed offset with
  | nil =>
      rw [nameEnd, Property.readName]
      split
      next => rfl
      next c found => simp [stands.unitAt?_nil] at found
  | cons c rest ih =>
      rw [Property.readName]
      rcases Nat.lt_or_ge c.toNat 0x80 with ascii | other
      · have found := (stands.unitAt?_eq_some_iff ascii).2 rfl
        rw [nameEnd_of_unitAt? found, (stands.step ascii).unitsFrom_eq, endsName_units]
        split
        next => simp
        next =>
          rw [ih (stands.step ascii), units_cons_ascii ascii, List.length_cons]
          omega
      · have shape := stands.unitsFrom_eq
        rw [units_cons] at shape
        have moved : Stands source (offset + (units [c]).length) rest :=
          @Stands.advance _ _ rest [c] stands
        rw [nameEnd_pass shape fun _ => le_of_mem_units other, ih moved, endsName_eq_false other,
          Bool.and_false, if_neg Bool.false_ne_true, if_neg (ne_of_other other (by decide)),
          if_neg (ne_of_other other (by decide))]
        dsimp only
        rw [units_cons c (Property.readName bracketed rest).1, List.length_append, Nat.add_assoc]

end SingleFile.Markup.ByteScan
