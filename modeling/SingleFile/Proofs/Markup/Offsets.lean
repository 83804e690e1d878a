import SingleFile.Proofs.Markup.ByteName
import SingleFile.Proofs.Markup.Spelling
import SingleFile.Proofs.Markup.Truncation

/-!
# Offsets stay between characters

Each reader of the scanner by offset is compared with the reader of characters: from an offset
where a text is left it finds the same, and goes on at an offset where the same is left. So no
offset at which a round begins is inside a character, no cut fails, and since reading consumes
characters, every round moves on.

Main statement: `rounds_in_bounds`.
-/

namespace SingleFile.Markup.ByteScan

open SingleFile.Text

/-- A reader finds `value`, and goes on at an offset where `rest` is left. -/
def Gives {α : Type} (source : String) (found : Checked (α × Nat)) (value : α)
    (rest : List Char) : Prop :=
  ∃ next, found = some (value, next) ∧ Stands source next rest

/-- A reader that may find nothing finds what is expected. -/
def Agrees {α : Type} (source : String) (found : Checked (Option (α × Nat))) :
    Option (α × List Char) → Prop
  | none => found = some none
  | some (value, rest) => ∃ next, found = some (some (value, next)) ∧ Stands source next rest

section

variable {source : String} {offset : Nat} {text : List Char}

theorem value?_gives (stands : Stands source offset text) :
    Gives source (value? source offset) (String.ofList (Property.readValue text).1)
      (Property.readValue text).2 := by
  cases text with
  | nil => exact ⟨offset, by rw [value?, stands.unitAt?_nil]; rfl, stands⟩
  | cons c rest =>
      rw [Property.readValue, value?]
      by_cases quoted : (c = '"' || c = '\'') = true
      · rw [if_pos quoted]
        have ascii : c.toNat < 0x80 := by
          simp only [Bool.or_eq_true, decide_eq_true_eq] at quoted
          rcases quoted with rfl | rfl <;> decide
        have inner := stands.step ascii
        have uniform := uniform_ne ascii
        refine ⟨_, ?_, (inner.skipWhile uniform).drop_mark ascii⟩
        rw [(stands.unitAt?_eq_some_iff ascii).2 rfl]
        simp only [quoted, if_true, inner.slice?_skipWhile uniform]
        rfl
      · rw [if_neg quoted]
        have uniform : Uniform fun d => !isTagBlank d && d != '>' := by
          refine ⟨true, fun d other => ?_⟩
          simp [eq_false_of_other (fun _ => toNat_lt_of_isTagBlank) other,
            @ne_of_other d '>' other (by decide)]
        refine ⟨_, ?_, stands.skipWhile uniform⟩
        rcases stands.exists_unitAt? with ⟨u, found, known⟩
        have unquoted : ¬ (u = '"' || u = '\'') = true := by
          rcases known with rfl | ⟨first, -⟩
          · exact quoted
          · simp [@ne_of_other u '"' first (by decide), @ne_of_other u '\'' first (by decide)]
        rw [found]
        simp only [if_neg unquoted, stands.slice?_skipWhile uniform]
        rfl

/-- A value after an equals sign is read, and without a sign nothing is consumed. -/
theorem readBinding_of_sign {text rest : List Char}
    (sign : text.dropWhile isTagBlank = '=' :: rest) :
    Property.readBinding text =
      (some (Property.readValue (rest.dropWhile isTagBlank)).1,
        (Property.readValue (rest.dropWhile isTagBlank)).2) := by
  rw [Property.readBinding, sign]
  rfl

theorem prop?_agrees (stands : Stands source offset text) :
    Agrees source (prop? source offset) (Property.read? text) := by
  have parts := Property.readName_append_readName false text
  have ended := @nameEnd_eq _ false _ _ stands
  rw [← parts] at stands
  have after := stands.advance
  have name := stands.slice?_eq
  rw [← ended] at after name
  rw [Property.read?, prop?]
  dsimp only
  by_cases unnamed : (Property.readName false text).1 = []
  · rw [if_pos unnamed, if_pos (by simp [ended, unnamed])]
    rfl
  · have proper : ¬ nameEnd source false offset = offset := by
      have := length_units_pos unnamed
      omega
    rw [if_neg unnamed, if_neg proper, name, Option.bind_eq_bind, Option.bind_some]
    have sign := after.skipWhile uniform_isTagBlank
    have signed := @Stands.unitAt?_eq_some_iff _ _ _ '=' (by decide) sign
    by_cases bound : unitAt? source (skipWhile source isTagBlank (nameEnd source false offset)) =
        some '='
    · rcases List.head?_eq_some_iff.1 (signed.1 bound) with ⟨rest, shape⟩
      rw [shape] at sign
      have value := (sign.step (by decide)).skipWhile uniform_isTagBlank
      rcases value?_gives value with ⟨next, read, left⟩
      rw [if_pos bound, read, readBinding_of_sign shape]
      refine ⟨next, ?_, left⟩
      have property := property?_ofList (Property.readName false text).1
        (some (Property.readValue (rest.dropWhile isTagBlank)).1)
      simp only [Option.bind_eq_bind, Option.bind_some]
      rw [show some (String.ofList _) = Option.map String.ofList (some _) from rfl, property]
      rfl
    · have unbound : Property.readBinding (Property.readName false text).2 =
          (none, (Property.readName false text).2) := by
        apply Property.readBinding_eq_none
        rintro c head rfl
        exact bound (signed.2 head)
      rw [if_neg bound, unbound]
      refine ⟨_, ?_, after⟩
      have property := property?_ofList (Property.readName false text).1 none
      rw [show none = Option.map String.ofList none from rfl, property]
      rfl

/-! ## Opening tags -/

theorem next_of_slash {rest : List Char} (shape : text.dropWhile isTagBlank = '/' :: rest)
    (goesOn : rest.head? ≠ some '>') : TagPart.next text = (.noise, rest) := by
  rw [TagPart.next, shape]
  split
  next equal => cases equal
  next equal =>
    cases equal
    exact absurd rfl goesOn
  next equal => cases equal
  next equal =>
    cases equal
    rfl
  next unslashed equal =>
    cases equal
    exact absurd rfl unslashed

theorem next_of_other {c : Char} {rest : List Char}
    (shape : text.dropWhile isTagBlank = c :: rest) (unslashed : c ≠ '/') (inside : c ≠ '>') :
    TagPart.next text =
      ((Property.read? (c :: rest)).map fun found => (TagPart.property found.1, found.2)).getD
        (.noise, rest) := by
  rw [TagPart.next, shape]
  split
  next equal => cases equal
  next equal =>
    cases equal
    exact absurd rfl unslashed
  next equal =>
    cases equal
    exact absurd rfl inside
  next equal =>
    cases equal
    exact absurd rfl unslashed
  next equal =>
    cases equal
    cases Property.read? (c :: rest) <;> rfl

/-- A character at which no property begins is an ASCII character. -/
theorem toNat_lt_of_read? {c : Char} {rest : List Char}
    (unread : Property.read? (c :: rest) = none) : c.toNat < 0x80 := by
  rcases Nat.lt_or_ge c.toNat 0x80 with ascii | other
  · exact ascii
  · rw [Property.read?, Property.readName, endsName_eq_false other] at unread
    simp at unread

/-- One round of the loop over an opening tag. -/
theorem tagPart?_gives (stands : Stands source offset text) :
    Gives source (tagPart? source offset) (TagPart.next text).1 (TagPart.next text).2 := by
  have begins := stands.skipWhile uniform_isTagBlank
  rw [tagPart?]
  cases shape : text.dropWhile isTagBlank with
  | nil =>
      rw [shape] at begins
      rw [TagPart.next, shape]
      exact ⟨_, by rw [begins.unitAt?_nil]; rfl, begins⟩
  | cons c rest =>
      rw [shape] at begins
      by_cases slash : c = '/'
      · subst slash
        have ascii : '/'.toNat < 0x80 := by decide
        rw [(begins.unitAt?_eq_some_iff ascii).2 rfl]
        have follows := @Stands.unitAt?_eq_some_iff _ _ _ '>' (by decide) (begins.step ascii)
        by_cases closes : rest.head? = some '>'
        · rcases List.head?_eq_some_iff.1 closes with ⟨tail, rfl⟩
          rw [TagPart.next, shape]
          refine ⟨_, ?_, (begins.step ascii).step (by decide)⟩
          simp [follows]
        · rw [next_of_slash shape closes]
          refine ⟨_, ?_, begins.step ascii⟩
          simp [follows, closes]
      · by_cases bracket : c = '>'
        · subst bracket
          have ascii : '>'.toNat < 0x80 := by decide
          rw [(begins.unitAt?_eq_some_iff ascii).2 rfl, TagPart.next, shape]
          exact ⟨_, rfl, begins.step ascii⟩
        · -- the byte is neither mark: it is the character itself, or both are not of ASCII
          rcases begins.exists_unitAt? with ⟨u, found, known⟩
          have other (d : Char) (ascii : d.toNat < 0x80) (apart : c ≠ d) : u ≠ d := by
            rcases known with rfl | ⟨first, -⟩
            · exact apart
            · exact ne_of_other first ascii
          have unslashed := other '/' (by decide) slash
          have inside := other '>' (by decide) bracket
          have agrees := prop?_agrees begins
          rw [found, next_of_other shape slash bracket]
          simp only [unslashed, inside, decide_false, Bool.false_and, Bool.false_eq_true, if_false]
          cases read : Property.read? (c :: rest) with
          | none =>
              rw [read] at agrees
              refine ⟨_, ?_, begins.step (toNat_lt_of_read? read)⟩
              rw [show prop? source _ = some none from agrees]
              rfl
          | some part =>
              rw [read] at agrees
              rcases agrees with ⟨next, reads, left⟩
              exact ⟨next, by rw [reads]; rfl, left⟩

/-- The loop over an opening tag ends, with what is read of characters. Each round but the
last consumes a character, so it needs no more rounds than there are characters and one. -/
theorem tagTail?_eq {rounds : Nat} (stands : Stands source offset text)
    (enough : text.length < rounds) :
    ∃ next, tagTail? source rounds offset =
        some ((TagTail.read text).props, (TagTail.read text).selfClosing, next) ∧
      Stands source next (TagTail.read text).rest := by
  induction rounds generalizing offset text with
  | zero => exact absurd enough (Nat.not_lt_zero _)
  | succ rounds ih =>
      rcases tagPart?_gives stands with ⟨next, read, left⟩
      have bound := Nat.le_of_lt_succ enough
      rw [tagTail?, read]
      cases part : TagPart.next text with
      | mk found rest =>
          rw [part] at left
          cases found with
          | finish selfClosing =>
              rw [TagTail.read_finish part]
              exact ⟨next, rfl, left⟩
          | property property =>
              have shorter := TagPart.length_next_lt part (by simp)
              rcases ih left (Nat.lt_of_lt_of_le shorter bound) with ⟨stop, reads, after⟩
              rw [TagTail.read_property part]
              refine ⟨stop, ?_, after⟩
              simp only [Option.bind_eq_bind, Option.bind_some, reads]
              rfl
          | noise =>
              have shorter := TagPart.length_next_lt part (by simp)
              rcases ih left (Nat.lt_of_lt_of_le shorter bound) with ⟨stop, reads, after⟩
              rw [TagTail.read_noise part]
              exact ⟨stop, reads, after⟩

/-! ## Constructs of the text -/

theorem comment?_agrees (stands : Stands source offset text) :
    Agrees source (comment? source offset) (Token.comment? text) := by
  have first := @Stands.unitAt?_eq_some_iff _ _ _ '<' (by decide) stands
  rw [comment?, Token.comment?]
  cases marked : after? "<!--".toList text with
  | none =>
      rw [Option.map_none, stands.sliceFrom?_eq]
      by_cases begins : unitAt? source offset = some '<'
      · rw [if_pos begins, Option.bind_eq_bind, Option.bind_some, startsWith_ofList (by decide),
          marked]
        rfl
      · rw [if_neg begins]
        rfl
  | some body =>
      have begins : unitAt? source offset = some '<' := by
        rw [first, after?_eq_some_iff.1 marked]
        rfl
      rw [if_pos begins, stands.sliceFrom?_eq, Option.bind_eq_bind, Option.bind_some,
        startsWith_ofList (by decide), marked]
      have inner : Stands source (offset + 4) body := stands.of_after? (by decide) marked
      rw [Option.isSome_some, if_pos rfl, inner.sliceFrom?_eq, Option.bind_some,
        find?_ofList (by decide) (by decide), Option.map_some]
      cases cut : cut? "-->".toList body with
      | none =>
          -- without an end mark the cut goes to the end, and so does the offset
          refine ⟨_, ?_, inner.finish⟩
          have content := inner.sliceFrom?_eq
          rw [sliceFrom?] at content
          simp only [Option.map_none, Option.getD_none, content, Option.bind_some]
          simp
      | some parts =>
          rcases inner.of_cut? (by decide) cut with ⟨content, after⟩
          have clipped : min (offset + 4 + (units parts.1).length + 3) source.utf8ByteSize =
              offset + 4 + (units parts.1).length + 3 := Nat.min_eq_left after.le
          refine ⟨_, ?_, after⟩
          simp only [Option.map_some, Option.getD_some, content, Option.bind_some, clipped]
          rfl

theorem toNat_lt_of_isTagChar {c : Char} (named : isTagChar c = true) : c.toNat < 0x80 := by
  simp only [isTagChar, Bool.or_eq_true, decide_eq_true_eq] at named
  rcases named with (((named | rfl) | rfl) | rfl) | rfl
  · exact toNat_lt_of_isAlphanum named
  all_goals decide

theorem uniform_isTagChar : Uniform isTagChar := uniform_of_ascii fun _ => toNat_lt_of_isTagChar

theorem closeTag?_agrees (stands : Stands source offset text) :
    Agrees source (closeTag? source offset) (Token.closeTag? text) := by
  have slash := @toNat_lt_of_beq '/' (by decide)
  have begins := @Stands.any_unitAt?_succ _ _ _ '<' (by decide) (· == '/') slash stands
  rw [← eq_some_iff_any] at begins
  rw [closeTag?]
  by_cases marked : ∃ body, text = '<' :: '/' :: body
  · rcases marked with ⟨body, rfl⟩
    have inner : Stands source (offset + 2) body := (stands.step (by decide)).step (by decide)
    rw [if_pos (by simpa using begins.2 ⟨'/', body, rfl, rfl⟩)]
    simp only [inner.slice?_skipWhile uniform_isTagChar, Option.bind_eq_bind, Option.bind_some]
    rw [Token.closeTag?]
    cases tag : body.takeWhile isTagChar with
    | nil => rfl
    | cons c name =>
        have bracket := (inner.skipWhile uniform_isTagChar).skipWhile (@uniform_ne '>' (by decide))
        have bound := bracket.le
        have clipped (stop size : Nat) (bound : stop ≤ size) :
            min (stop + 1) size = if stop < size then stop + 1 else stop := by
          split <;> omega
        refine ⟨_, ?_, bracket.drop_mark (by decide)⟩
        rw [if_pos (by simp), clipped _ _ bound]
        rfl
  · have unread : Token.closeTag? text = none := by
      unfold Token.closeTag?
      split
      next body => exact absurd ⟨body, rfl⟩ marked
      next => rfl
    rw [unread, if_neg]
    · rfl
    · intro found
      rcases begins.1 (by simpa using found) with ⟨d, body, rfl, same⟩
      exact marked ⟨body, by rw [eq_of_beq same]⟩

theorem opensTag_iff (stands : Stands source offset text) :
    opensTag source offset = true ↔ ∃ c body, text = '<' :: c :: body ∧ c.isAlpha = true := by
  rw [← stands.any_unitAt?_succ (by decide) fun _ => toNat_lt_of_isAlpha]
  simp [opensTag]

theorem openTag?_agrees (stands : Stands source offset text) :
    Agrees source (openTag? source offset) (Token.openTag? text) := by
  rw [openTag?]
  by_cases opens : opensTag source offset = true
  · rcases (opensTag_iff stands).1 opens with ⟨c, body, rfl, letter⟩
    have inner : Stands source (offset + 1) (c :: body) := stands.step (by decide)
    have tail := inner.skipWhile uniform_isTagChar
    rcases tagTail?_eq tail (Nat.lt_succ_of_le tail.length_le) with ⟨next, read, left⟩
    rw [if_pos opens, Token.openTag?, if_pos letter]
    refine ⟨next, ?_, left⟩
    simp only [inner.slice?_skipWhile uniform_isTagChar, Option.bind_eq_bind, Option.bind_some,
      read]
    rfl
  · have unread : Token.openTag? text = none := by
      unfold Token.openTag?
      split
      next c body =>
        rw [if_neg]
        exact fun letter => opens ((opensTag_iff stands).2 ⟨c, body, rfl, letter⟩)
      next => rfl
    rw [unread, if_neg opens]
    rfl

theorem interpolation?_agrees (stands : Stands source offset text) :
    Agrees source (interpolation? source offset) (Token.interpolation? text) := by
  rw [interpolation?, stands.sliceFrom?_eq, Option.bind_eq_bind, Option.bind_some,
    startsWith_ofList (by decide), Token.interpolation?, Option.bind_eq_bind]
  cases marked : after? openBraces text with
  | none =>
      rw [show "\x7b\x7b".toList = openBraces from rfl, marked]
      rfl
  | some body =>
      have inner : Stands source (offset + 2) body := stands.of_after? (by decide) marked
      rw [show "\x7b\x7b".toList = openBraces from rfl, marked, Option.isSome_some, if_pos rfl,
        inner.sliceFrom?_eq, Option.bind_some, find?_ofList (by decide) (by decide),
        show "\x7d\x7d".toList = closeBraces from rfl, Option.bind_some, Option.bind_eq_bind]
      cases cut : cut? closeBraces body with
      | none => rfl
      | some parts =>
          rcases inner.of_cut? (by decide) cut with ⟨content, after⟩
          refine ⟨_, ?_, after⟩
          simp only [Option.map_some, content, Option.bind_some, String.toList_ofList]
          rfl

/-! ## Runs of text -/

theorem startsMarkup_units (text : List Char) :
    Token.startsMarkup (units text) = Token.startsMarkup text := by
  have letters := @any_head?_units Char.isAlpha fun _ => toNat_lt_of_isAlpha
  have ends (rest : List Char) :
      (cut? closeBraces (units rest)).isSome = (cut? closeBraces rest).isSome := by
    rw [closeBraces, cut?_units (by decide), Option.isSome_map]
  rw [Token.startsMarkup_eq, Token.startsMarkup_eq, after?_units (by decide),
    after?_units (by decide), after?_units (by decide), after?_units (by decide)]
  simp only [Option.isSome_map, Option.any_map, letters, ends]

theorem startsMarkup?_eq (stands : Stands source offset text) :
    startsMarkup? source offset = some (Token.startsMarkup text) := by
  rw [startsMarkup?, stands.unitsFrom_eq, after?_units (by decide), Option.isSome_map,
    startsMarkup_units]
  cases braced : after? openBraces text with
  | none => rfl
  | some body =>
      have inner : Stands source (offset + 2) body := stands.of_after? (by decide) braced
      rw [after?_eq_some_iff.1 braced, Option.isSome_some, if_pos rfl, inner.sliceFrom?_eq,
        Option.bind_eq_bind, Option.bind_some, find?_ofList (by decide) (by decide),
        Option.isSome_map]
      rfl

/-- No markup begins at a byte that is not an ASCII character. -/
theorem startsMarkup?_of_other {u : Char} {more : List Char}
    (shape : unitsFrom source offset = u :: more) (other : 0x80 ≤ u.toNat) :
    startsMarkup? source offset = some false := by
  have bracket : '<' ≠ u := (ne_of_other other (by decide)).symm
  have brace : '\x7b' ≠ u := (ne_of_other other (by decide)).symm
  rw [startsMarkup?, shape, Token.startsMarkup_eq]
  simp [after?, openBraces, bracket, brace]

/-- The search for the end of a text passes over bytes that are not ASCII characters. -/
theorem textEnd?_pass {run more : List Char} (shape : unitsFrom source offset = run ++ more)
    (others : ∀ u ∈ run, 0x80 ≤ u.toNat) :
    textEnd? source offset = textEnd? source (offset + run.length) := by
  induction run generalizing offset with
  | nil => rfl
  | cons u run ih =>
      rcases List.forall_mem_cons.1 others with ⟨here, later⟩
      rcases unitsFrom_succ shape with ⟨found, next⟩
      rw [textEnd?, if_pos (lt_of_unitAt? found), startsMarkup?_of_other shape here,
        List.length_cons, Nat.add_comm run.length, ← Nat.add_assoc, ← ih next later]
      rfl

/-- The search after the first byte of a character goes on after the character. -/
theorem textEnd?_succ {c : Char} {rest : List Char} (stands : Stands source offset (c :: rest)) :
    textEnd? source (offset + 1) = textEnd? source (offset + (units [c]).length) := by
  rcases exists_units c with ⟨u, run, shape, others, -⟩
  have bytes := stands.unitsFrom_eq
  rw [units_cons, shape, List.cons_append] at bytes
  rw [textEnd?_pass (unitsFrom_succ bytes).2 others, shape, List.length_cons, Nat.add_assoc,
    Nat.add_comm 1]

theorem textEnd?_eq (stands : Stands source offset text) :
    textEnd? source offset = some (offset + (units (Token.textRun text).1).length) := by
  induction text generalizing offset with
  | nil =>
      rw [textEnd?, if_neg (by simp [stands.lt_iff])]
      rfl
  | cons c rest ih =>
      have after := @Stands.advance _ _ rest [c] stands
      rw [textEnd?, if_pos (stands.lt_iff.2 (by simp)), startsMarkup?_eq stands, Token.textRun]
      simp only [Option.bind_eq_bind, Option.bind_some]
      cases Token.startsMarkup (c :: rest) with
      | true => rfl
      | false =>
          simp only [Bool.false_eq_true, if_false]
          rw [textEnd?_succ stands, ih after, units_cons c (Token.textRun rest).1,
            List.length_append, Nat.add_assoc]

theorem text?_gives {c : Char} {rest : List Char} (stands : Stands source offset (c :: rest)) :
    Gives source (text? source offset) (.text (String.ofList (c :: (Token.textRun rest).1)))
      (Token.textRun rest).2 := by
  have after := @Stands.advance _ _ rest [c] stands
  have stop := textEnd?_eq after
  rw [← textEnd?_succ stands, Nat.add_assoc, ← List.length_append, ← units_append] at stop
  have parted : Stands source offset ((c :: (Token.textRun rest).1) ++ (Token.textRun rest).2) := by
    rwa [List.cons_append, Token.textRun_append_textRun]
  refine ⟨_, ?_, parted.advance⟩
  rw [text?, stop, Option.bind_eq_bind, Option.bind_some]
  simp only [List.singleton_append, parted.slice?_eq]
  rfl

/-! ## The loop over the text -/

theorem Agrees.orElse {found other : Checked (Option (Token × Nat))}
    {first second : Option (Token × List Char)} (agrees : Agrees source found first)
    (otherwise : Agrees source other second) :
    Agrees source (orElse? found other) (first <|> second) := by
  cases first with
  | none =>
      rw [orElse?, show found = some none from agrees]
      exact otherwise
  | some result =>
      rcases agrees with ⟨next, rfl, left⟩
      exact ⟨next, rfl, left⟩

theorem markup?_agrees (stands : Stands source offset text) :
    Agrees source (markup? source offset) (Token.markup? text) :=
  (comment?_agrees stands).orElse <| (closeTag?_agrees stands).orElse <|
    (openTag?_agrees stands).orElse (interpolation?_agrees stands)

/-- One round of the loop over the text. -/
theorem next?_gives {c : Char} {rest : List Char} (stands : Stands source offset (c :: rest)) :
    Gives source (next? source offset) (Token.next c rest).1 (Token.next c rest).2 := by
  have agrees := markup?_agrees stands
  rw [next?, Token.next]
  cases read : Token.markup? (c :: rest) with
  | none =>
      rw [read] at agrees
      rw [show markup? source offset = some none from agrees]
      exact text?_gives stands
  | some found =>
      rw [read] at agrees
      rcases agrees with ⟨next, found, left⟩
      exact ⟨next, by rw [found]; rfl, left⟩

/-- The loop over the text ends, with the tokens that are read of characters. -/
theorem scanFrom?_eq {rounds : Nat} (stands : Stands source offset text)
    (enough : text.length < rounds) :
    scanFrom? source rounds offset = some (Token.scan text) := by
  induction rounds generalizing offset text with
  | zero => exact absurd enough (Nat.not_lt_zero _)
  | succ rounds ih =>
      cases text with
      | nil =>
          rw [scanFrom?, if_neg (by simp [stands.lt_iff]), Token.scan]
          rfl
      | cons c rest =>
          rcases next?_gives stands with ⟨next, read, left⟩
          have fewer := Token.length_next_lt c rest
          rw [scanFrom?, if_pos (stands.lt_iff.2 (by simp)), read, Token.scan]
          simp only [Option.bind_eq_bind, Option.bind_some, ih left (by omega)]
          rfl

theorem read?_eq (source : String) : read? source = some (Forest.read source) := by
  have start := Stands.start source
  rw [read?, scanFrom?_eq start (Nat.lt_succ_of_le start.length_le)]
  rfl

/-! ## Offsets -/

theorem Head.exists_stands (head : Head source offset) : ∃ rest, Stands source offset rest := by
  induction head with
  | start => exact ⟨_, Stands.start source⟩
  | next _ inRange read ih =>
      rcases ih with ⟨rest, stands⟩
      cases rest with
      | nil => simp [stands.lt_iff] at inRange
      | cons c rest =>
          rcases next?_gives stands with ⟨next, reads, left⟩
          rw [read] at reads
          cases reads
          exact ⟨_, left⟩

theorem TagHead.exists_stands (head : TagHead source offset) :
    ∃ rest, Stands source offset rest := by
  induction head with
  | start head opens =>
      rcases head.exists_stands with ⟨rest, stands⟩
      rcases (opensTag_iff stands).1 opens with ⟨c, body, rfl, -⟩
      exact ⟨_, (stands.step (by decide)).skipWhile uniform_isTagChar⟩
  | next _ _ read ih =>
      rcases ih with ⟨rest, stands⟩
      rcases tagPart?_gives stands with ⟨next, reads, left⟩
      rw [read] at reads
      cases reads
      exact ⟨_, left⟩

/-- A round of the loop over the text moves the offset forward. -/
theorem Head.exists_next (head : Head source offset) (inRange : offset < source.utf8ByteSize) :
    ∃ token next, next? source offset = some (token, next) ∧ offset < next := by
  rcases head.exists_stands with ⟨rest, stands⟩
  cases rest with
  | nil => simp [stands.lt_iff] at inRange
  | cons c rest =>
      rcases next?_gives stands with ⟨next, read, left⟩
      exact ⟨_, next, read, stands.lt_of_length_lt left (Token.length_next_lt c rest)⟩

/-- A round of the loop over an opening tag moves the offset forward, unless it is the
last one. -/
theorem TagHead.exists_part (head : TagHead source offset) :
    ∃ part next, tagPart? source offset = some (part, next) ∧
      ((∀ selfClosing, part ≠ .finish selfClosing) → offset < next) := by
  rcases head.exists_stands with ⟨rest, stands⟩
  rcases tagPart?_gives stands with ⟨next, read, left⟩
  refine ⟨_, next, read, fun goesOn => ?_⟩
  exact stands.lt_of_length_lt left (TagPart.length_next_lt rfl goesOn)

end

/-- Going through a template by offset never cuts it out of range or inside a character, and
always moves on. A slice is only there when both its ends are in range and on boundaries;
yet every round of the two loops is at a boundary and gives a result, at a later offset
unless it ends a tag, every written name of a directive can be split, and the whole scan ends
with the forest that is read of the characters. -/
theorem rounds_in_bounds (source : String) :
    (∀ text start stop, (slice? text start stop).isSome = true ↔
        (start ≤ stop ∧ stop ≤ text.utf8ByteSize) ∧
          OnBoundary text start ∧ OnBoundary text stop) ∧
      (∀ offset, Head source offset →
        (offset ≤ source.utf8ByteSize ∧ OnBoundary source offset) ∧
          (offset < source.utf8ByteSize →
            ∃ token next, next? source offset = some (token, next) ∧ offset < next)) ∧
      (∀ offset, TagHead source offset →
        (offset ≤ source.utf8ByteSize ∧ OnBoundary source offset) ∧
          ∃ part next, tagPart? source offset = some (part, next) ∧
            ((∀ selfClosing, part ≠ .finish selfClosing) → offset < next)) ∧
      read? source = some (Forest.read source) ∧
      ∀ name, directiveName? name = some (DirectiveName.ofString name) := by
  refine ⟨fun _ _ _ => isSome_slice?_iff, fun offset head => ?_, fun offset head => ?_,
    read?_eq source, directiveName?_eq⟩
  · rcases head.exists_stands with ⟨rest, stands⟩
    exact ⟨⟨stands.le, stands.onBoundary⟩, head.exists_next⟩
  · rcases head.exists_stands with ⟨rest, stands⟩
    exact ⟨⟨stands.le, stands.onBoundary⟩, head.exists_part⟩

/-- A tag without an end, with a name and a value that are not of ASCII. -/
theorem rounds_in_bounds_unfinished :
    TagHead "<a ü='é" (skipWhile "<a ü='é" isTagChar 1) ∧
      OnBoundary "<a ü='é" (skipWhile "<a ü='é" isTagChar 1) ∧
      ∃ token next, next? "<a ü='é" 0 = some (token, next) ∧ 0 < next := by
  have opens : TagHead "<a ü='é" (skipWhile "<a ü='é" isTagChar 1) :=
    .start .start (by decide +kernel)
  have bounded := rounds_in_bounds "<a ü='é"
  exact ⟨opens, (bounded.2.2.1 _ opens).1.2, (bounded.2.1 0 .start).2 (by decide)⟩

end SingleFile.Markup.ByteScan
