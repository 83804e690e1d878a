import SingleFile.Text.Blank
import SingleFile.Text.Scan

/-!
# What searching from the left finds

A mark is found at its first occurrence, and nowhere when it does not occur.
Occurrence is the infix relation of lists, so the facts of this module tie the
searches to a notion that does not mention them.
-/

namespace SingleFile.Text

/-- A property of all characters of a text is decided by going through the text, not
through all characters. -/
instance (priority := 2000) decidableForallChar {holds : Char → Prop} [DecidablePred holds]
    (text : List Char) : Decidable (∀ c ∈ text, holds c) :=
  List.decidableBAll holds text

theorem isSome_after?_iff {mark text : List Char} :
    (after? mark text).isSome = true ↔ mark <+: text := by
  constructor
  · intro found
    obtain ⟨rest, begins⟩ := Option.isSome_iff_exists.1 found
    exact ⟨rest, (after?_eq_some_iff.1 begins).symm⟩
  · rintro ⟨rest, rfl⟩
    simp

theorem after?_eq_none_iff {mark text : List Char} :
    after? mark text = none ↔ ¬ mark <+: text := by
  rw [← isSome_after?_iff, Option.not_isSome_iff_eq_none]

/-- A search stops at the first place where something is recognised. -/
theorem cutAt?_append {stop? : List Char → Option (List Char)} {before text rest : List Char}
    (passed : ∀ front back, before = front ++ back → back ≠ [] → stop? (back ++ text) = none)
    (stopped : stop? text = some rest) :
    cutAt? stop? (before ++ text) = some (before, rest) := by
  induction before with
  | nil =>
      cases text with
      | nil => simp [cutAt?, stopped]
      | cons c text => simp [cutAt?, stopped]
  | cons c before ih =>
      have here : stop? (c :: (before ++ text)) = none :=
        passed [] (c :: before) rfl (by simp)
      have later := ih fun front back equal => passed (c :: front) back (by simp [equal])
      simp [cutAt?, here, later]

/-- Nothing is recognised before the place where a search stops. -/
theorem stop?_eq_none_of_cutAt? {stop? : List Char → Option (List Char)}
    {text before rest : List Char} (cut : cutAt? stop? text = some (before, rest)) :
    ∃ tail, text = before ++ tail ∧ stop? tail = some rest ∧
      ∀ front back, before = front ++ back → back ≠ [] → stop? (back ++ tail) = none := by
  induction text generalizing before with
  | nil =>
      obtain ⟨found, stopped, equal⟩ := Option.map_eq_some_iff.1 cut
      cases equal
      refine ⟨[], rfl, stopped, ?_⟩
      intro front back equal proper
      simp_all
  | cons c text ih =>
      rw [cutAt?] at cut
      split at cut
      next found stopped =>
        cases cut
        refine ⟨c :: text, rfl, stopped, ?_⟩
        intro front back equal proper
        simp_all
      next missed =>
        obtain ⟨⟨before, found⟩, later, equal⟩ := Option.map_eq_some_iff.1 cut
        cases equal
        obtain ⟨tail, parts, stopped, passed⟩ := ih later
        refine ⟨tail, by simp [parts], stopped, ?_⟩
        intro front back equal proper
        cases front with
        | nil =>
            rw [List.nil_append] at equal
            rw [← equal, List.cons_append, ← parts]
            exact missed
        | cons d front =>
            rw [List.cons_append, List.cons.injEq] at equal
            exact passed front back equal.2 proper

theorem cutAt?_eq_none_iff {stop? : List Char → Option (List Char)} {text : List Char} :
    cutAt? stop? text = none ↔ ∀ front back, text = front ++ back → stop? back = none := by
  induction text with
  | nil => simp [cutAt?]
  | cons c text ih =>
      constructor
      · intro missed front back equal
        rw [cutAt?] at missed
        split at missed
        next => simp at missed
        next here =>
          cases front with
          | nil =>
              rw [List.nil_append] at equal
              rw [← equal]
              exact here
          | cons d front =>
              rw [List.cons_append, List.cons.injEq] at equal
              exact ih.1 (Option.map_eq_none_iff.1 missed) front back equal.2
      · intro missed
        have here : stop? (c :: text) = none := missed [] (c :: text) rfl
        have later := ih.2 fun front back equal => missed (c :: front) back (by simp [equal])
        simp [cutAt?, here, later]

theorem cut?_eq_none_iff {mark text : List Char} :
    cut? mark text = none ↔ ¬ mark <:+: text := by
  rw [cut?, cutAt?_eq_none_iff]
  constructor
  · rintro missed ⟨front, back, equal⟩
    have here := missed front (mark ++ back) (by simp [← equal])
    simp at here
  · intro absent front back equal
    rw [after?_eq_none_iff]
    rintro ⟨rest, begins⟩
    exact absent ⟨front, rest, by simp [equal, ← begins]⟩

/-- The text before the first mark does not hold the mark. -/
theorem not_infix_of_cut? {mark text before rest : List Char} (proper : mark ≠ [])
    (cut : cut? mark text = some (before, rest)) : ¬ mark <:+: before := by
  obtain ⟨tail, -, -, passed⟩ := stop?_eq_none_of_cutAt? cut
  rintro ⟨front, back, equal⟩
  have here := passed front (mark ++ back) (by simp [← equal]) (by simp [proper])
  rw [List.append_assoc, after?_append] at here
  simp at here

/-- The first mark is found, unless a mark ends in it that begins before it. -/
theorem cut?_append {mark before : List Char}
    (absent : ¬ mark <:+: before ++ mark.dropLast) (rest : List Char) :
    cut? mark (before ++ (mark ++ rest)) = some (before, rest) := by
  refine cutAt?_append ?_ (after?_append mark rest)
  intro front back equal proper
  rw [after?_eq_none_iff]
  intro begins
  apply absent
  -- what begins in `back` ends before the last character of the mark after it
  have bound : mark.length ≤ (back ++ mark.dropLast).length := by
    have := List.length_pos_iff.2 proper
    simp only [List.length_append, List.length_dropLast]
    omega
  have whole : back ++ mark.dropLast <+: back ++ (mark ++ rest) := by
    rw [List.prefix_append_right_inj]
    exact (List.dropLast_prefix mark).trans (List.prefix_append mark rest)
  have inside := List.prefix_of_prefix_length_le begins whole bound
  rw [equal, List.append_assoc]
  exact inside.isInfix.trans (List.suffix_append front _).isInfix

theorem cut?_singleton_append {c : Char} {before : List Char} (absent : c ∉ before)
    (rest : List Char) : cut? [c] (before ++ c :: rest) = some (before, rest) := by
  apply cut?_append
  rintro ⟨front, back, equal⟩
  have member : c ∈ before ++ [c].dropLast := by
    rw [← equal]
    simp
  simp [absent] at member

/-- The text up to the first `c`, and all of it where there is none. -/
theorem cut?_singleton (c : Char) (text : List Char) :
    cut? [c] text = if c ∈ text then
      some (text.takeWhile (· != c), (text.dropWhile (· != c)).drop 1) else none := by
  induction text with
  | nil => rfl
  | cons d text ih =>
      rw [cut?] at ih ⊢
      by_cases same : c = d
      · simp [cutAt?, after?, same]
      · have other : (d != c) = true := by simpa using Ne.symm same
        rw [cutAt?, after?, if_neg same, ih]
        by_cases later : c ∈ text
        · simp [later, other]
        · simp [later, same]

theorem after?_singleton_of_ne {c : Char} {text : List Char} (other : text.head? ≠ some c) :
    after? [c] text = none := by
  rw [after?_eq_none_iff]
  rintro ⟨rest, rfl⟩
  exact other rfl

/-- A search passes over characters that do not begin the mark. -/
theorem cut?_pass {m : Char} {run : List Char} (passed : ∀ c ∈ run, c ≠ m)
    (mark text : List Char) :
    cut? (m :: mark) (run ++ text) =
      (cut? (m :: mark) text).map fun parts => (run ++ parts.1, parts.2) := by
  induction run with
  | nil => simp
  | cons c run ih =>
      rcases List.forall_mem_cons.1 passed with ⟨here, later⟩
      have missed : after? (m :: mark) (c :: (run ++ text)) = none := by
        rw [after?, if_neg here.symm]
      have rest := ih later
      rw [cut?] at rest ⊢
      rw [List.cons_append, cutAt?, missed, rest, Option.map_map]
      rfl

/-- The text before the first `c` does not hold `c`. -/
theorem not_mem_of_cut? {c : Char} {text before rest : List Char}
    (cut : cut? [c] text = some (before, rest)) : c ∉ before := by
  intro member
  obtain ⟨front, back, equal⟩ := List.append_of_mem member
  exact not_infix_of_cut? (by simp) cut ⟨front, back, by simp [equal]⟩

/-- What holds of the first character of a text, in the form in which it is asked for of
the text that follows a run. -/
theorem forall_head?_cons {holds : Char → Prop} {c : Char} (here : holds c) (rest : List Char) :
    ∀ d ∈ (c :: rest).head?, holds d := by
  intro d head
  cases head
  exact here

/-- A run of characters is taken whole when what follows it does not continue it. -/
theorem takeWhile_append {holds : Char → Bool} {run rest : List Char}
    (every : ∀ c ∈ run, holds c = true) (stops : ∀ c ∈ rest.head?, holds c = false) :
    (run ++ rest).takeWhile holds = run := by
  rw [List.takeWhile_append_of_pos every]
  cases rest with
  | nil => simp
  | cons c rest => simp [stops c rfl]

@[inherit_doc takeWhile_append]
theorem dropWhile_append {holds : Char → Bool} {run rest : List Char}
    (every : ∀ c ∈ run, holds c = true) (stops : ∀ c ∈ rest.head?, holds c = false) :
    (run ++ rest).dropWhile holds = rest := by
  rw [List.dropWhile_append_of_pos every]
  cases rest with
  | nil => rfl
  | cons c rest => simp [stops c rfl]

/-- A run and what follows it are known by the whole text, when neither run is continued. -/
theorem append_inj_of_run {holds : Char → Bool} {run other rest tail : List Char}
    (every : ∀ c ∈ run, holds c = true) (everyOther : ∀ c ∈ other, holds c = true)
    (stops : ∀ c ∈ rest.head?, holds c = false) (stopsOther : ∀ c ∈ tail.head?, holds c = false)
    (equal : run ++ rest = other ++ tail) : run = other ∧ rest = tail := by
  constructor
  · rw [← takeWhile_append every stops, equal, takeWhile_append everyOther stopsOther]
  · rw [← dropWhile_append every stops, equal, dropWhile_append everyOther stopsOther]

/-- A run of characters that ends within a text is the same in front of more text. -/
theorem takeWhile_append_left {holds : Char → Bool} {text : List Char}
    (stops : text.dropWhile holds ≠ []) (more : List Char) :
    (text ++ more).takeWhile holds = text.takeWhile holds := by
  rw [List.takeWhile_append, if_neg]
  intro whole
  apply stops
  have parts : text.takeWhile holds ++ text.dropWhile holds = text :=
    List.takeWhile_append_dropWhile
  have lengths := congrArg List.length parts
  rw [List.length_append, whole] at lengths
  exact List.eq_nil_of_length_eq_zero (by omega)

@[inherit_doc takeWhile_append_left]
theorem dropWhile_append_left {holds : Char → Bool} {text : List Char}
    (stops : text.dropWhile holds ≠ []) (more : List Char) :
    (text ++ more).dropWhile holds = text.dropWhile holds ++ more := by
  rw [List.dropWhile_append, if_neg (by simpa using stops)]

theorem holds_of_mem_takeWhile {holds : Char → Bool} {text : List Char} {c : Char}
    (member : c ∈ text.takeWhile holds) : holds c = true :=
  List.all_eq_true.1 List.all_takeWhile c member

/-! ## Marks at the ends of a text -/

theorem not_infix_cons {mark text : List Char} {c : Char} (first : mark.head? ≠ some c)
    (proper : mark ≠ []) (absent : ¬ mark <:+: text) : ¬ mark <:+: c :: text := by
  rw [List.infix_cons_iff, not_or]
  refine ⟨?_, absent⟩
  intro begins
  apply first
  cases mark with
  | nil => exact absurd rfl proper
  | cons m mark => rw [(List.cons_prefix_cons.1 begins).1, List.head?_cons]

theorem not_infix_concat {mark text : List Char} {c : Char} (last : mark.getLast? ≠ some c)
    (proper : mark ≠ []) (absent : ¬ mark <:+: text) : ¬ mark <:+: text ++ [c] := by
  rw [List.infix_concat_iff, not_or]
  refine ⟨?_, absent⟩
  rintro ⟨front, equal⟩
  apply last
  have ends := congrArg List.getLast? equal
  simpa [List.getLast?_append, List.getLast?_eq_some_getLast proper] using ends

/-- A comment ends at its first end mark. -/
theorem cut?_commentEnd {content : List Char} (absent : ¬ "-->".toList <:+: content)
    (rest : List Char) :
    cut? "-->".toList (content ++ ("-->".toList ++ rest)) = some (content, rest) := by
  apply cut?_append
  have once := not_infix_concat (c := '-') (by decide) (by decide) absent
  have twice := not_infix_concat (c := '-') (by decide) (by decide) once
  simpa using twice

/-- A mark that holds `c` at most as its first character does not reach beyond a `c`. -/
theorem prefix_of_prefix_append {mark before after : List Char} {c : Char}
    (absent : c ∉ mark.tail) (proper : before ≠ []) (begins : mark <+: before ++ c :: after) :
    mark <+: before := by
  induction before generalizing mark with
  | nil => exact absurd rfl proper
  | cons b before ih =>
      cases mark with
      | nil => exact List.nil_prefix
      | cons m mark =>
          rw [List.cons_append, List.cons_prefix_cons] at begins
          rw [List.cons_prefix_cons]
          refine ⟨begins.1, ?_⟩
          cases before with
          | nil =>
              cases mark with
              | nil => exact List.nil_prefix
              | cons n mark =>
                  rw [List.nil_append, List.cons_prefix_cons] at begins
                  simp [begins.2.1] at absent
          | cons d before =>
              exact ih (fun member => absent (List.mem_of_mem_tail member)) (by simp) begins.2

/-! ## Values in quotes -/

/-- A value in double quotes after an equals sign, as it stands after a name; nothing
without a value. -/
def writtenBinding : Option (List Char) → List Char
  | none => []
  | some value => '=' :: '"' :: (value ++ ['"'])

/-! ## Trimming -/

theorem trim_isPrefix (text : List Char) : trim text <+: text.dropWhile isBlank := by
  have inner : (text.dropWhile isBlank).reverse.dropWhile isBlank <:+
      (text.dropWhile isBlank).reverse := List.dropWhile_suffix isBlank
  simpa [trim] using List.reverse_prefix.2 inner

theorem trim_isInfix (text : List Char) : trim text <:+: text :=
  (trim_isPrefix text).isInfix.trans (List.dropWhile_suffix isBlank).isInfix

theorem dropWhile_of_head {holds : Char → Bool} {text : List Char}
    (stops : ∀ c ∈ text.head?, holds c = false) : text.dropWhile holds = text := by
  cases text with
  | nil => rfl
  | cons c text => simp [stops c rfl]

/-- A text is trimmed when neither of its ends is blank. -/
theorem trim_eq_self {text : List Char} (first : ∀ c ∈ text.head?, isBlank c = false)
    (last : ∀ c ∈ text.getLast?, isBlank c = false) : trim text = text := by
  rw [trim, dropWhile_of_head first, dropWhile_of_head (by simpa using last), List.reverse_reverse]

theorem head?_trim (text : List Char) : ∀ c ∈ (trim text).head?, isBlank c = false := by
  intro c head
  rcases trim_isPrefix text with ⟨rest, equal⟩
  have begins : (text.dropWhile isBlank).head? = some c := by
    rw [← equal, List.head?_append, show (trim text).head? = some c from head, Option.some_or]
  have stopped := List.head?_dropWhile_not isBlank text
  simpa [begins] using stopped

theorem getLast?_trim (text : List Char) : ∀ c ∈ (trim text).getLast?, isBlank c = false := by
  intro c last
  have stopped := List.head?_dropWhile_not isBlank (text.dropWhile isBlank).reverse
  rw [trim, List.getLast?_reverse] at last
  rw [show List.head? _ = some c from last] at stopped
  simpa using stopped

theorem trim_trim (text : List Char) : trim (trim text) = trim text :=
  trim_eq_self (head?_trim text) (getLast?_trim text)

/-- Blanks around a trimmed text are all that trimming takes away. -/
theorem trim_between {text : List Char} {left right : Char} (leftBlank : isBlank left = true)
    (rightBlank : isBlank right = true) (trimmed : trim text = text) :
    trim (left :: (text ++ [right])) = text := by
  cases text with
  | nil => simp [trim, leftBlank, rightBlank]
  | cons c text =>
      have first : isBlank c = false := head?_trim (c :: text) c (by simp [trimmed])
      have last := getLast?_trim (c :: text)
      rw [trimmed] at last
      have kept : (c :: text).reverse.dropWhile isBlank = (c :: text).reverse :=
        dropWhile_of_head (by rwa [List.head?_reverse])
      rw [trim, List.dropWhile_cons_of_pos leftBlank, List.cons_append,
        List.dropWhile_cons_of_neg (by simp [first]), ← List.cons_append, List.reverse_append,
        List.reverse_singleton, List.singleton_append, List.dropWhile_cons_of_pos rightBlank, kept,
        List.reverse_reverse]

end SingleFile.Text
