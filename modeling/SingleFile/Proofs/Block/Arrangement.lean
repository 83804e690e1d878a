import SingleFile.Proofs.Block.Source

/-!
# Blocks among other text

Around the blocks of a component stand comments, and stray text in which no tag and no
comment begins. `Arranged` describes such texts. Two runs of stray text never meet in
them, since a tag could begin in the one and go on in the other; everything else begins
with a `<`, which continues nothing.

Main statement: `Source.readAll?_of_arranged`, the blocks of an arrangement are read in
their order, and nothing else is.
-/

namespace SingleFile.Block.Source

open SingleFile.Text

/-- Text in which no tag and no comment begins. -/
def IsStray (text : List Char) : Prop :=
  (∀ c ∈ text, c.isAlpha = true → ¬ ['<', c] <:+: text) ∧ ¬ "<!--".toList <:+: text

instance (text : List Char) : Decidable (IsStray text) := inferInstanceAs (Decidable (_ ∧ _))

/-- Blocks in this order, each in one of its spellings, with comments and stray text before,
between and after them. -/
inductive Arranged : List Source → List Char → Prop where
  | stray {gap : List Char} : IsStray gap → Arranged [] gap
  | comment {gap content text : List Char} {sources : List Source} :
      IsStray gap → ¬ "-->".toList <:+: content → Arranged sources text →
      Arranged sources (gap ++ ("<!--".toList ++ (content ++ ("-->".toList ++ text))))
  | block {gap block text : List Char} {source : Source} {sources : List Source} :
      IsStray gap → source.Spelled block → Arranged sources text →
      Arranged (source :: sources) (gap ++ (block ++ text))

theorem IsStray.tail {c : Char} {text : List Char} (stray : IsStray (c :: text)) :
    IsStray text := by
  have longer {part : List Char} (inside : part <:+: text) : part <:+: c :: text :=
    inside.trans (List.suffix_cons c text).isInfix
  refine ⟨?_, fun inside => stray.2 (longer inside)⟩
  intro d member letter inside
  exact stray.1 d (List.mem_cons_of_mem c member) letter (longer inside)

/-- No tag begins in stray text, also not one that goes on behind it. -/
theorem opensTag_of_isStray {c : Char} {text rest : List Char} (stray : IsStray (c :: text))
    (follows : ∀ d ∈ rest.head?, d = '<') : opensTag (c :: (text ++ rest)) = false := by
  by_cases marked : c = '<'
  · subst marked
    cases text with
    | cons d text =>
        rw [Bool.eq_false_iff]
        intro letter
        exact stray.1 d (by simp) letter ⟨[], text, rfl⟩
    | nil =>
        cases rest with
        | nil => rfl
        | cons d rest =>
            rw [follows d rfl]
            rfl
  · unfold opensTag
    split
    next equal => exact absurd (List.cons.inj equal).1 marked
    next => rfl

/-- No comment begins in stray text, also not one that goes on behind it. -/
theorem after?_of_isStray {c : Char} {text rest : List Char} (stray : IsStray (c :: text))
    (follows : ∀ d ∈ rest.head?, d = '<') : after? "<!--".toList (c :: (text ++ rest)) = none := by
  rw [after?_eq_none_iff]
  intro begins
  apply stray.2
  cases rest with
  | nil =>
      rw [List.append_nil] at begins
      exact begins.isInfix
  | cons d rest =>
      rw [follows d rfl, ← List.cons_append] at begins
      have absent : '<' ∉ "<!--".toList.tail := by decide
      exact (prefix_of_prefix_append absent (List.cons_ne_nil c text) begins).isInfix

/-- Stray text is passed over. -/
theorem readAll?_of_isStray {gap rest : List Char} (stray : IsStray gap)
    (follows : ∀ c ∈ rest.head?, c = '<') : readAll? (gap ++ rest) = readAll? rest := by
  induction gap with
  | nil => rfl
  | cons c gap ih =>
      rw [List.cons_append, readAll?, opensTag_of_isStray stray follows,
        after?_of_isStray stray follows]
      exact ih stray.tail

/-- A comment is passed over. -/
theorem readAll?_comment {content : List Char} (absent : ¬ "-->".toList <:+: content)
    (rest : List Char) :
    readAll? ("<!--".toList ++ (content ++ ("-->".toList ++ rest))) = readAll? rest := by
  have comment : comment? ("<!--".toList ++ (content ++ ("-->".toList ++ rest))) = some rest := by
    rw [comment?, after?_append, Option.bind_some, cut?_commentEnd absent]
    rfl
  have marked : (after? "<!--".toList ("<!--".toList ++
      (content ++ ("-->".toList ++ rest)))).isSome = true := by
    rw [after?_append]
    rfl
  generalize shape : "<!--".toList ++ (content ++ ("-->".toList ++ rest)) = text at comment marked ⊢
  cases text with
  | nil => cases marked
  | cons c text =>
      have unopened : opensTag (c :: text) = false := by
        rw [← shape]
        rfl
      rw [readAll?, unopened, if_neg (by decide), if_pos marked]
      split <;> simp_all

theorem head?_of_opensTag {text : List Char} (opens : opensTag text = true) :
    text.head? = some '<' := by
  unfold opensTag at opens
  split at opens
  next => rfl
  next => cases opens

theorem opensTag_of_rawTag? {text tag rest : List Char} (read : rawTag? text = some (tag, rest)) :
    opensTag text = true := by
  unfold rawTag? at read
  split at read
  next c tail =>
    simp only at read
    split at read
    next accepted =>
      rw [Bool.and_eq_true] at accepted
      exact accepted.1
    next => cases read
  next => cases read

/-- A tag opens at the start of every spelling. -/
theorem opensTag_of_spelled {source : Source} {text : List Char} (spelled : source.Spelled text)
    (rest : List Char) : opensTag (text ++ rest) = true := by
  cases spelled with
  | raw opened _ _ =>
      rw [List.append_assoc]
      rcases openRaw?_eq_some_iff.1 (openRaw?_append opened _) with ⟨tail, begins, -⟩
      exact opensTag_of_rawTag? begins
  | template opened _ _ =>
      rcases Option.bind_eq_some_iff.1 opened with ⟨tail, begins, -⟩
      rcases Option.bind_eq_some_iff.1 begins with ⟨found, named, -⟩
      rw [after?_eq_some_iff.1 named]
      rfl

/-- The blocks of an arrangement are read in their order. -/
theorem readAll?_of_arranged {sources : List Source} {text : List Char}
    (arranged : Arranged sources text) : readAll? text = some sources := by
  induction arranged with
  | @stray gap stray =>
      rw [← List.append_nil gap, readAll?_of_isStray stray (by simp), readAll?]
  | comment stray absent _ ih =>
      rw [readAll?_of_isStray stray (by simp), readAll?_comment absent, ih]
  | @block gap block text source sources stray spelled _ ih =>
      have opens := opensTag_of_spelled spelled text
      have follows : ∀ c ∈ (block ++ text).head?, c = '<' := by
        intro c head
        rw [head?_of_opensTag opens] at head
        cases head
        rfl
      rw [readAll?_of_isStray stray follows,
        readAll?_of_read? opens (read?_of_spelled spelled text), ih]
      rfl

end SingleFile.Block.Source
