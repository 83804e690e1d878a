import SingleFile.Proofs.Text.Search

/-!
# Texts as bytes

A text can be gone through by offset, one byte of its UTF-8 form at a time. A byte is
looked at as the character with its number. An ASCII character is one byte, itself, and
any other character is several bytes of which none is an ASCII character; so tests for
ASCII characters, and searches for marks made of them, can be made on the bytes.

The text between two offsets is only there when both are in range and neither is inside
a character. Main definitions: `slice?`, and `Stands`, which says what is left of a text
from an offset on.
-/

namespace SingleFile.Text

/-! ## Going through bytes -/

/-- A computation that cuts texts by offset. It gives nothing when one of the cuts is out
of range or goes through a character. -/
abbrev Checked := Option

/-- The offset is in range and not inside a character. -/
def OnBoundary (source : String) (offset : Nat) : Prop :=
  String.Pos.Raw.IsValid source ⟨offset⟩

instance (source : String) (offset : Nat) : Decidable (OnBoundary source offset) :=
  inferInstanceAs (Decidable (String.Pos.Raw.IsValid source ⟨offset⟩))

/-- The text between two offsets. -/
def slice? (source : String) (start stop : Nat) : Checked String :=
  if cut : start ≤ stop ∧ OnBoundary source start ∧ OnBoundary source stop then
    some (source.extract ⟨⟨start⟩, cut.2.1⟩ ⟨⟨stop⟩, cut.2.2⟩)
  else none

/-- The text from an offset on. -/
def sliceFrom? (source : String) (start : Nat) : Checked String :=
  slice? source start source.utf8ByteSize

/-- The bytes from an offset on, each as the character with its number. -/
def unitsFrom (source : String) (offset : Nat) : List Char :=
  (source.toByteArray.data.toList.drop offset).map Char.ofUInt8

/-- The byte at an offset, if the offset is in range. -/
def unitAt? (source : String) (offset : Nat) : Option Char := (unitsFrom source offset).head?

/-- Whether a text begins with the bytes of `mark`. -/
def startsWith (source mark : String) : Bool :=
  (after? (unitsFrom mark 0) (unitsFrom source 0)).isSome

/-- The offset of the first place where the bytes of `mark` stand. -/
def find? (source mark : String) : Option Nat :=
  (cut? (unitsFrom mark 0) (unitsFrom source 0)).map fun parts => parts.1.length

theorem OnBoundary.le {source : String} {offset : Nat} (bounded : OnBoundary source offset) :
    offset ≤ source.utf8ByteSize :=
  String.Pos.Raw.le_iff.1 (String.Pos.Raw.IsValid.le_rawEndPos bounded)

/-- A slice is there exactly when both its ends are in range and on boundaries. -/
theorem isSome_slice?_iff {source : String} {start stop : Nat} :
    (slice? source start stop).isSome = true ↔
      (start ≤ stop ∧ stop ≤ source.utf8ByteSize) ∧
        OnBoundary source start ∧ OnBoundary source stop := by
  rw [slice?]
  split
  next cut => simp [cut.1, cut.2, cut.2.2.le]
  next uncut => simp_all

theorem length_unitsFrom (source : String) (offset : Nat) :
    (unitsFrom source offset).length = source.utf8ByteSize - offset := by
  simp [unitsFrom]

theorem unitsFrom_of_unitAt? {source : String} {offset : Nat} {c : Char}
    (found : unitAt? source offset = some c) :
    unitsFrom source offset = c :: unitsFrom source (offset + 1) := by
  rcases List.head?_eq_some_iff.1 found with ⟨rest, shape⟩
  have next : unitsFrom source (offset + 1) = (unitsFrom source offset).drop 1 := by
    simp [unitsFrom, List.map_drop]
  rw [next, shape]
  rfl

/-- Going one byte on. -/
theorem unitsFrom_succ {source : String} {offset : Nat} {c : Char} {rest : List Char}
    (shape : unitsFrom source offset = c :: rest) :
    unitAt? source offset = some c ∧ unitsFrom source (offset + 1) = rest := by
  have found : unitAt? source offset = some c := by
    rw [unitAt?, shape]
    rfl
  have next := unitsFrom_of_unitAt? found
  rw [shape, List.cons.injEq] at next
  exact ⟨found, next.2.symm⟩

theorem lt_of_unitAt? {source : String} {offset : Nat} {c : Char}
    (found : unitAt? source offset = some c) : offset < source.utf8ByteSize := by
  have := length_unitsFrom source offset
  rw [unitsFrom_of_unitAt? found, List.length_cons] at this
  omega

/-- The first offset from `offset` on at which no byte with `holds` stands. -/
def skipWhile (source : String) (holds : Char → Bool) (offset : Nat) : Nat :=
  match _found : unitAt? source offset with
  | some c => if holds c then skipWhile source holds (offset + 1) else offset
  | none => offset
termination_by source.utf8ByteSize - offset
decreasing_by
  have := lt_of_unitAt? _found
  omega

theorem skipWhile_eq (source : String) (holds : Char → Bool) (offset : Nat) :
    skipWhile source holds offset =
      offset + ((unitsFrom source offset).takeWhile holds).length := by
  fun_induction skipWhile source holds offset with
  | case1 offset c found holdsHere ih =>
      rw [ih, unitsFrom_of_unitAt? found, List.takeWhile_cons_of_pos holdsHere, List.length_cons]
      omega
  | case2 offset c found stops =>
      rw [unitsFrom_of_unitAt? found, List.takeWhile_cons_of_neg stops]
      rfl
  | case3 offset found =>
      rw [List.head?_eq_none_iff.1 found]
      rfl

/-! ## The bytes of characters -/

/-- The bytes of a text, each as the character with its number. -/
def units (text : List Char) : List Char :=
  (text.flatMap String.utf8EncodeChar).map Char.ofUInt8

theorem unitsFrom_eq (source : String) (offset : Nat) :
    unitsFrom source offset = (units source.toList).drop offset := by
  obtain ⟨text, rfl⟩ := source.exists_eq_ofList
  simp [unitsFrom, units, List.utf8Encode]

@[simp] theorem units_nil : units [] = [] := rfl

@[simp] theorem units_append (text more : List Char) :
    units (text ++ more) = units text ++ units more := by
  simp [units]

theorem units_cons (c : Char) (text : List Char) : units (c :: text) = units [c] ++ units text :=
  units_append [c] text

theorem length_units (text : List Char) :
    (units text).length = (String.ofList text).utf8ByteSize := by
  simp [units, ← String.size_toByteArray, List.utf8Encode]

theorem ne_of_other {c d : Char} (other : 0x80 ≤ c.toNat) (ascii : d.toNat < 0x80) : c ≠ d := by
  rintro rfl
  omega

theorem eq_false_of_other {holds : Char → Bool} (ascii : ∀ c, holds c = true → c.toNat < 0x80)
    {c : Char} (other : 0x80 ≤ c.toNat) : holds c = false := by
  cases held : holds c with
  | false => rfl
  | true => exact absurd (ascii c held) (Nat.not_lt_of_le other)

theorem toNat_ofUInt8 (byte : UInt8) : (Char.ofUInt8 byte).toNat = byte.toNat :=
  UInt8.toNat_toUInt32 byte

/-- An ASCII character is one byte, itself. -/
theorem units_ascii {c : Char} (ascii : c.toNat < 0x80) : units [c] = [c] := by
  have narrow : c.val.toNat ≤ 0x7f := Nat.le_of_lt_succ ascii
  have same : Char.ofUInt8 (UInt8.ofNat c.val.toNat) = c := by
    apply Char.toNat_inj.1
    rw [toNat_ofUInt8, UInt8.toNat_ofNat']
    exact Nat.mod_eq_of_lt (Nat.lt_trans ascii (by decide))
  simp only [units, List.flatMap_cons, List.flatMap_nil, List.append_nil, String.utf8EncodeChar,
    if_pos narrow, List.map_cons, List.map_nil, same]

/-- No byte of any other character is an ASCII character. -/
theorem le_of_mem_units {c u : Char} (other : 0x80 ≤ c.toNat) (member : u ∈ units [c]) :
    0x80 ≤ u.toNat := by
  have wide : ¬ c.val.toNat ≤ 0x7f := Nat.not_le_of_lt other
  have bound (n : Nat) (low : 0x80 ≤ n) (high : n < 0x100) :
      0x80 ≤ (Char.ofUInt8 (UInt8.ofNat n)).toNat := by
    rw [toNat_ofUInt8, UInt8.toNat_ofNat', Nat.mod_eq_of_lt high]
    exact low
  simp only [units, List.flatMap_cons, List.flatMap_nil, List.append_nil, String.utf8EncodeChar,
    if_neg wide] at member
  -- two, three or four bytes, by the size of the character's number
  split at member
  · simp only [List.map_cons, List.map_nil, List.mem_cons, List.not_mem_nil, or_false] at member
    rcases member with rfl | rfl <;> exact bound _ (by omega) (by omega)
  · split at member
    · simp only [List.map_cons, List.map_nil, List.mem_cons, List.not_mem_nil, or_false] at member
      rcases member with rfl | rfl | rfl <;> exact bound _ (by omega) (by omega)
    · simp only [List.map_cons, List.map_nil, List.mem_cons, List.not_mem_nil, or_false] at member
      rcases member with rfl | rfl | rfl | rfl <;> exact bound _ (by omega) (by omega)

theorem units_cons_ascii {c : Char} (ascii : c.toNat < 0x80) (text : List Char) :
    units (c :: text) = c :: units text := by
  rw [units_cons, units_ascii ascii]
  rfl

/-- Every character has a first byte, which is an ASCII character only if it is the
character itself, and no later byte is one. -/
theorem exists_units (c : Char) : ∃ u run, units [c] = u :: run ∧
    (∀ v ∈ run, 0x80 ≤ v.toNat) ∧ (u = c ∨ 0x80 ≤ u.toNat ∧ 0x80 ≤ c.toNat) := by
  rcases Nat.lt_or_ge c.toNat 0x80 with ascii | other
  · exact ⟨c, [], units_ascii ascii, by simp, .inl rfl⟩
  · cases shape : units [c] with
    | nil => simp [units] at shape
    | cons u run =>
        have members (v : Char) (member : v ∈ u :: run) : 0x80 ≤ v.toNat :=
          le_of_mem_units other (shape ▸ member)
        exact ⟨u, run, rfl, fun v member => members v (List.mem_cons_of_mem u member),
          .inr ⟨members u List.mem_cons_self, other⟩⟩

theorem length_units_pos {text : List Char} (proper : text ≠ []) : 0 < (units text).length := by
  cases text with
  | nil => exact absurd rfl proper
  | cons c text =>
      rcases exists_units c with ⟨u, run, shape, -⟩
      simp [units_cons c text, shape]

theorem length_le_length_units (text : List Char) : text.length ≤ (units text).length := by
  induction text with
  | nil => exact Nat.le_refl 0
  | cons c text ih =>
      have first := @length_units_pos [c] (by simp)
      rw [units_cons, List.length_append, List.length_cons]
      omega

theorem units_of_ascii {text : List Char} (ascii : ∀ c ∈ text, c.toNat < 0x80) :
    units text = text := by
  induction text with
  | nil => rfl
  | cons c text ih =>
      rcases List.forall_mem_cons.1 ascii with ⟨here, later⟩
      rw [units_cons_ascii here, ih later]

/-- A test for ASCII characters can be made on the first byte of a text. -/
theorem any_head?_units {holds : Char → Bool} (ascii : ∀ c, holds c = true → c.toNat < 0x80)
    (text : List Char) : (units text).head?.any holds = text.head?.any holds := by
  cases text with
  | nil => rfl
  | cons c text =>
      rcases exists_units c with ⟨u, run, shape, -, same | ⟨first, other⟩⟩
      · rw [units_cons, shape, same]
        rfl
      · rw [units_cons, shape, List.cons_append, List.head?_cons, List.head?_cons, Option.any_some,
          Option.any_some, eq_false_of_other ascii first, eq_false_of_other ascii other]

theorem eq_some_iff_any {found : Option Char} {c : Char} :
    found = some c ↔ found.any (· == c) = true := by
  cases found <;> simp

theorem toNat_lt_of_beq {c : Char} (ascii : c.toNat < 0x80) (d : Char) (same : (d == c) = true) :
    d.toNat < 0x80 := by
  rwa [eq_of_beq same]

/-- An ASCII character is the first one of a text when it is the first byte. -/
theorem head?_units_eq_some_iff {c : Char} (ascii : c.toNat < 0x80) {text : List Char} :
    (units text).head? = some c ↔ text.head? = some c := by
  rw [eq_some_iff_any, eq_some_iff_any, any_head?_units (toNat_lt_of_beq ascii)]

/-- A mark of ASCII characters begins a text when it begins the bytes of the text. -/
theorem after?_units {mark : List Char} (ascii : ∀ c ∈ mark, c.toNat < 0x80) (text : List Char) :
    after? mark (units text) = (after? mark text).map units := by
  induction mark generalizing text with
  | nil => rfl
  | cons m mark ih =>
      rcases List.forall_mem_cons.1 ascii with ⟨here, later⟩
      cases text with
      | nil => rfl
      | cons c text =>
          rcases Nat.lt_or_ge c.toNat 0x80 with narrow | wide
          · rw [units_cons_ascii narrow, after?, after?]
            split
            · exact ih later text
            · rfl
          · rcases exists_units c with ⟨u, run, shape, -, known⟩
            have first : 0x80 ≤ u.toNat := known.elim (fun same => same ▸ wide) And.left
            rw [units_cons, shape, List.cons_append, after?, after?,
              if_neg (ne_of_other first here).symm, if_neg (ne_of_other wide here).symm]
            rfl

/-- A mark of ASCII characters is found in the bytes of a text where it is found in the
text. -/
theorem cut?_units {m : Char} {mark : List Char} (ascii : ∀ c ∈ m :: mark, c.toNat < 0x80)
    (text : List Char) :
    cut? (m :: mark) (units text) =
      (cut? (m :: mark) text).map fun parts => (units parts.1, units parts.2) := by
  induction text with
  | nil => rfl
  | cons c text ih =>
      rcases exists_units c with ⟨u, run, shape, later, -⟩
      have whole : units (c :: text) = u :: (run ++ units text) := by
        rw [units_cons, shape, List.cons_append]
      have begins := after?_units ascii (c :: text)
      rw [whole] at begins
      rw [whole, cut?, cut?, cutAt?, cutAt?, begins]
      cases after? (m :: mark) (c :: text) with
      | some rest => rfl
      | none =>
          -- the search goes on after the first byte, over the other bytes of the character
          have apart : ∀ v ∈ run, v ≠ m := fun v member =>
            ne_of_other (later v member) (ascii m List.mem_cons_self)
          have passed := cut?_pass apart mark (units text)
          rw [ih, cut?] at passed
          simp only [Option.map_none]
          rw [passed, cut?, Option.map_map, Option.map_map, Option.map_map]
          congr 1
          funext parts
          simp only [Function.comp_apply, units_cons c parts.1, shape]
          rfl

/-- A test that does not tell characters apart that are not of ASCII. -/
def Uniform (holds : Char → Bool) : Prop := ∃ value, ∀ c, 0x80 ≤ c.toNat → holds c = value

theorem uniform_of_ascii {holds : Char → Bool} (ascii : ∀ c, holds c = true → c.toNat < 0x80) :
    Uniform holds :=
  ⟨false, fun _ => eq_false_of_other ascii⟩

theorem uniform_ne {c : Char} (ascii : c.toNat < 0x80) : Uniform (· != c) := by
  refine ⟨true, fun d other => ?_⟩
  rw [bne_iff_ne]
  exact ne_of_other other ascii

theorem toNat_lt_of_isAlpha {c : Char} (letter : c.isAlpha = true) : c.toNat < 0x80 := by
  rcases Bool.or_eq_true_iff.1 letter with upper | lower
  · have bound := (of_decide_eq_true upper).2
    exact Nat.lt_of_le_of_lt (UInt32.le_iff_toNat_le.1 bound) (by decide)
  · have bound := of_decide_eq_true (Bool.and_eq_true_iff.1 lower).2
    exact Nat.lt_of_le_of_lt (UInt32.le_iff_toNat_le.1 bound) (by decide)

theorem toNat_lt_of_isAlphanum {c : Char} (named : c.isAlphanum = true) : c.toNat < 0x80 := by
  rcases Bool.or_eq_true_iff.1 named with letter | digit
  · exact toNat_lt_of_isAlpha letter
  · have bound := of_decide_eq_true (Bool.and_eq_true_iff.1 digit).2
    exact Nat.lt_of_le_of_lt (UInt32.le_iff_toNat_le.1 bound) (by decide)

theorem toNat_lt_of_isTagBlank {c : Char} (blank : isTagBlank c = true) : c.toNat < 0x80 := by
  simp only [isTagBlank, Bool.or_eq_true, decide_eq_true_eq] at blank
  rcases blank with (((rfl | rfl) | rfl) | rfl) | rfl <;> decide

theorem uniform_isTagBlank : Uniform isTagBlank := uniform_of_ascii fun _ => toNat_lt_of_isTagBlank

/-- A run of bytes is the bytes of a run of characters. -/
theorem takeWhile_units {holds : Char → Bool} (uniform : Uniform holds) (text : List Char) :
    (units text).takeWhile holds = units (text.takeWhile holds) := by
  rcases uniform with ⟨value, known⟩
  induction text with
  | nil => rfl
  | cons c text ih =>
      rcases Nat.lt_or_ge c.toNat 0x80 with ascii | other
      · rw [units_cons_ascii ascii, List.takeWhile_cons, List.takeWhile_cons]
        split
        · rw [ih, units_cons_ascii ascii]
        · rfl
      · have every (u : Char) (member : u ∈ units [c]) : holds u = value :=
          known u (le_of_mem_units other member)
        rw [units_cons, List.takeWhile_cons, known c other]
        cases value with
        | true =>
            rw [List.takeWhile_append_of_pos every, ih, if_pos rfl,
              units_cons c (text.takeWhile holds)]
        | false =>
            rcases exists_units c with ⟨u, run, shape, -⟩
            have stops : holds u = false := every u (by simp [shape])
            rw [shape, List.cons_append, List.takeWhile_cons_of_neg (by simp [stops])]
            rfl

theorem unitsFrom_zero (source : String) : unitsFrom source 0 = units source.toList :=
  unitsFrom_eq source 0

theorem startsWith_ofList {mark : String} (ascii : ∀ c ∈ mark.toList, c.toNat < 0x80)
    (text : List Char) :
    startsWith (String.ofList text) mark = (after? mark.toList text).isSome := by
  rw [startsWith, unitsFrom_zero, unitsFrom_zero, units_of_ascii ascii, String.toList_ofList,
    after?_units ascii, Option.isSome_map]

theorem find?_ofList {mark : String} (proper : mark.toList ≠ [])
    (ascii : ∀ c ∈ mark.toList, c.toNat < 0x80) (text : List Char) :
    find? (String.ofList text) mark =
      (cut? mark.toList text).map fun parts => (units parts.1).length := by
  rw [find?, unitsFrom_zero, unitsFrom_zero, units_of_ascii ascii, String.toList_ofList]
  cases shape : mark.toList with
  | nil => exact absurd shape proper
  | cons m rest =>
      rw [cut?_units (shape ▸ ascii), Option.map_map]
      rfl

/-! ## What stands at an offset -/

/-- From this offset on, `rest` is left of the text. -/
def Stands (source : String) (offset : Nat) (rest : List Char) : Prop :=
  ∃ before, source.toList = before ++ rest ∧ offset = (units before).length

namespace Stands

variable {source : String} {offset : Nat} {rest : List Char}

theorem start (source : String) : Stands source 0 source.toList := ⟨[], rfl, rfl⟩

/-- A run of whole characters is passed by its bytes. -/
theorem advance {run : List Char} (stands : Stands source offset (run ++ rest)) :
    Stands source (offset + (units run).length) rest := by
  rcases stands with ⟨before, parts, rfl⟩
  exact ⟨before ++ run, by simp [parts], by simp⟩

theorem ofList (text : List Char) : Stands (String.ofList text) 0 text := by
  simpa using start (String.ofList text)

/-- An ASCII character is passed by one byte. -/
theorem step {c : Char} (ascii : c.toNat < 0x80) (stands : Stands source offset (c :: rest)) :
    Stands source (offset + 1) rest := by
  have moved := @advance _ _ rest [c] stands
  rwa [units_ascii ascii] at moved

theorem onBoundary (stands : Stands source offset rest) : OnBoundary source offset := by
  rcases stands with ⟨before, parts, rfl⟩
  refine String.Pos.Raw.isValid_iff_exists_append.2
    ⟨String.ofList before, String.ofList rest, ?_, ?_⟩
  · rw [← String.ofList_append, ← parts, String.ofList_toList]
  · rw [length_units]
    rfl

theorem unitsFrom_eq (stands : Stands source offset rest) :
    unitsFrom source offset = units rest := by
  rcases stands with ⟨before, parts, rfl⟩
  rw [Text.unitsFrom_eq, parts, units_append, List.drop_left]

theorem utf8ByteSize_eq (stands : Stands source offset rest) :
    source.utf8ByteSize = offset + (units rest).length := by
  rcases stands with ⟨before, parts, rfl⟩
  rw [← List.length_append, ← units_append, ← parts, length_units, String.ofList_toList]

theorem lt_iff (stands : Stands source offset rest) :
    offset < source.utf8ByteSize ↔ rest ≠ [] := by
  rw [stands.utf8ByteSize_eq]
  constructor
  · rintro lower rfl
    simp at lower
  · intro proper
    have := length_units_pos proper
    omega

theorem le (stands : Stands source offset rest) : offset ≤ source.utf8ByteSize := by
  rw [stands.utf8ByteSize_eq]
  exact Nat.le_add_right ..

/-- No more characters are left than the text has bytes. -/
theorem length_le (stands : Stands source offset rest) : rest.length ≤ source.utf8ByteSize := by
  have bound := length_le_length_units rest
  rw [stands.utf8ByteSize_eq]
  omega

/-- Nothing is left at the end. -/
theorem finish (stands : Stands source offset rest) : Stands source source.utf8ByteSize [] := by
  have moved := @advance _ _ [] rest (by simpa using stands)
  rwa [← stands.utf8ByteSize_eq] at moved

/-- A mark of ASCII characters is passed by as many bytes. -/
theorem advance_mark {mark : List Char} (ascii : ∀ c ∈ mark, c.toNat < 0x80)
    (stands : Stands source offset (mark ++ rest)) :
    Stands source (offset + mark.length) rest := by
  have moved := stands.advance
  rwa [units_of_ascii ascii] at moved

@[inherit_doc advance_mark]
theorem of_after? {mark text : List Char} (ascii : ∀ c ∈ mark, c.toNat < 0x80)
    (stands : Stands source offset text) (begins : after? mark text = some rest) :
    Stands source (offset + mark.length) rest := by
  rw [after?_eq_some_iff.1 begins] at stands
  exact stands.advance_mark ascii

/-- The offset grows as less of the text is left. -/
theorem lt_of_length_lt {next : Nat} {left : List Char} (stands : Stands source offset rest)
    (later : Stands source next left) (shorter : left.length < rest.length) : offset < next := by
  rcases stands with ⟨before, parts, rfl⟩
  rcases later with ⟨beforeNext, partsNext, rfl⟩
  rw [parts] at partsNext
  rcases List.append_eq_append_iff.1 partsNext with ⟨mid, same, rfl⟩ | ⟨mid, -, same⟩
  · have proper : mid ≠ [] := by
      rintro rfl
      simp at shorter
    have := length_units_pos proper
    rw [same, units_append, List.length_append]
    omega
  · rw [same, List.length_append] at shorter
    omega

theorem extract_eq {run : List Char} (stands : Stands source offset (run ++ rest)) :
    source.toByteArray.extract offset (offset + (units run).length) =
      (String.ofList run).toByteArray := by
  rcases stands with ⟨before, parts, rfl⟩
  have whole : source = String.ofList before ++ (String.ofList run ++ String.ofList rest) := by
    rw [← String.ofList_append, ← String.ofList_append, ← parts, String.ofList_toList]
  have cut := @ByteArray.extract_append_size_add' (String.ofList before).toByteArray
    ((String.ofList run).toByteArray ++ (String.ofList rest).toByteArray) 0 (units run).length
    (units before).length (length_units before)
  rw [Nat.add_zero, ByteArray.extract_append_eq_left (length_units run)] at cut
  rw [whole, String.toByteArray_append, String.toByteArray_append, cut]

/-- A cut before and after a run of whole characters gives the run. -/
theorem slice?_eq {run : List Char} (stands : Stands source offset (run ++ rest)) :
    slice? source offset (offset + (units run).length) = some (String.ofList run) := by
  rw [slice?, dif_pos ⟨Nat.le_add_right .., stands.onBoundary, stands.advance.onBoundary⟩]
  exact congrArg some (String.toByteArray_inj.1 stands.extract_eq)

/-- The text before the first mark of ASCII characters can be cut out, and the mark passed. -/
theorem of_cut? {mark text before : List Char} (ascii : ∀ c ∈ mark, c.toNat < 0x80)
    (stands : Stands source offset text) (cut : cut? mark text = some (before, rest)) :
    slice? source offset (offset + (units before).length) = some (String.ofList before) ∧
      Stands source (offset + (units before).length + mark.length) rest := by
  rw [eq_append_of_cut? cut, List.append_assoc] at stands
  exact ⟨stands.slice?_eq, stands.advance.advance_mark ascii⟩

theorem sliceFrom?_eq (stands : Stands source offset rest) :
    sliceFrom? source offset = some (String.ofList rest) := by
  have whole : Stands source offset (rest ++ []) := by simpa using stands
  rw [sliceFrom?, stands.utf8ByteSize_eq, whole.slice?_eq]

theorem unitAt?_nil (stands : Stands source offset []) : unitAt? source offset = none := by
  rw [unitAt?, stands.unitsFrom_eq]
  rfl

/-- The byte at an offset is the character there, unless neither is an ASCII character. -/
theorem exists_unitAt? {c : Char} (stands : Stands source offset (c :: rest)) :
    ∃ u, unitAt? source offset = some u ∧ (u = c ∨ 0x80 ≤ u.toNat ∧ 0x80 ≤ c.toNat) := by
  rcases exists_units c with ⟨u, run, shape, -, known⟩
  refine ⟨u, ?_, known⟩
  rw [unitAt?, stands.unitsFrom_eq, units_cons, shape]
  rfl

@[inherit_doc any_head?_units]
theorem any_unitAt? {holds : Char → Bool} (ascii : ∀ c, holds c = true → c.toNat < 0x80)
    (stands : Stands source offset rest) :
    (unitAt? source offset).any holds = rest.head?.any holds := by
  rw [unitAt?, stands.unitsFrom_eq, any_head?_units ascii]

@[inherit_doc head?_units_eq_some_iff]
theorem unitAt?_eq_some_iff {c : Char} (ascii : c.toNat < 0x80)
    (stands : Stands source offset rest) :
    unitAt? source offset = some c ↔ rest.head? = some c := by
  rw [unitAt?, stands.unitsFrom_eq, head?_units_eq_some_iff ascii]

/-- The bytes at an offset and after it are tested as the characters there are. -/
theorem any_unitAt?_succ {c : Char} (ascii : c.toNat < 0x80) {holds : Char → Bool}
    (narrow : ∀ d, holds d = true → d.toNat < 0x80) (stands : Stands source offset rest) :
    unitAt? source offset = some c ∧ (unitAt? source (offset + 1)).any holds = true ↔
      ∃ d body, rest = c :: d :: body ∧ holds d = true := by
  rw [stands.unitAt?_eq_some_iff ascii]
  constructor
  · rintro ⟨first, second⟩
    rcases List.head?_eq_some_iff.1 first with ⟨tail, rfl⟩
    rw [(stands.step ascii).any_unitAt? narrow] at second
    cases tail with
    | nil => simp at second
    | cons d body => exact ⟨d, body, rfl, second⟩
  · rintro ⟨d, body, rfl, held⟩
    rw [(stands.step ascii).any_unitAt? narrow]
    exact ⟨rfl, held⟩

/-- Skipping bytes is skipping characters. -/
theorem skipWhile_eq {holds : Char → Bool} (uniform : Uniform holds)
    (stands : Stands source offset rest) :
    skipWhile source holds offset = offset + (units (rest.takeWhile holds)).length := by
  rw [Text.skipWhile_eq, stands.unitsFrom_eq, takeWhile_units uniform]

@[inherit_doc skipWhile_eq]
theorem skipWhile {holds : Char → Bool} (uniform : Uniform holds)
    (stands : Stands source offset rest) :
    Stands source (skipWhile source holds offset) (rest.dropWhile holds) := by
  rw [stands.skipWhile_eq uniform]
  apply advance
  rwa [List.takeWhile_append_dropWhile]

/-- What is skipped can be cut out. -/
theorem slice?_skipWhile {holds : Char → Bool} (uniform : Uniform holds)
    (stands : Stands source offset rest) :
    slice? source offset (Text.skipWhile source holds offset) =
      some (String.ofList (rest.takeWhile holds)) := by
  have parted := stands
  rw [← @List.takeWhile_append_dropWhile _ holds rest] at parted
  rw [stands.skipWhile_eq uniform, parted.slice?_eq]

/-- A mark that ends a run is passed over, if there is one. -/
theorem drop_mark {c : Char} {run : List Char} (ascii : c.toNat < 0x80)
    (stands : Stands source offset (run.dropWhile (· != c))) :
    Stands source (if offset < source.utf8ByteSize then offset + 1 else offset)
      ((run.dropWhile (· != c)).drop 1) := by
  have ends := List.head?_dropWhile_not (· != c) run
  cases shape : run.dropWhile (· != c) with
  | nil =>
      rw [shape] at stands
      rwa [if_neg (by simp [stands.lt_iff])]
  | cons d rest =>
      rw [shape] at stands ends
      have same : d = c := by simpa using ends
      rw [if_pos (stands.lt_iff.2 (by simp))]
      exact stands.step (same ▸ ascii)

end Stands

end SingleFile.Text
