import SingleFile.Proofs.Block.Arrangement
import SingleFile.Proofs.Document.Sections

/-!
# Components from their blocks

What a component is depends on its blocks and their order alone, and not on their
spelling or on what stands around them. The blocks are taken in from left to right.
Three of them may stand once; while none of these is repeated the component is the
collection of its blocks, and the first one that is repeated is reported.

Main statement: `Document.read_of_arranged`.
-/

namespace SingleFile

open SingleFile.Block (Source)

namespace Block.Source

/-- The slot that a block takes, if it is one of those that may stand once. -/
def slot? : Source → Option Slot
  | .template .. => some .template
  | .raw tag attrs _ =>
    if tag = "script" then some (if Attr.has "setup" attrs then .scriptSetup else .script)
    else none

/-- The template that a block is. -/
@[simp] def asTemplate? : Source → Option Markup.Template
  | .template attrs body => some ⟨attrs, Markup.Forest.read body⟩
  | .raw .. => none

/-- The script that a block is, if it is one of the asked sort. -/
@[simp] def asScript? (isSetup : Bool) : Source → Option Script
  | .template .. => none
  | .raw tag attrs content =>
    if tag = "script" ∧ Attr.has "setup" attrs = isSetup then some (.ofAttrs attrs content)
    else none

/-- The style that a block is. -/
@[simp] def asStyle? : Source → Option Style
  | .template .. => none
  | .raw tag attrs content => if tag = "style" then some (.ofAttrs attrs content) else none

/-- The custom block that a block is: one with any other tag. -/
@[simp] def asCustomBlock? : Source → Option CustomBlock
  | .template .. => none
  | .raw tag attrs content =>
    if tag = "script" || tag = "style" then none else some ⟨tag, attrs, content⟩

end Block.Source

namespace Document

/-- The component with these blocks. -/
def collect (sources : List Source) : Document where
  template := sources.findSome? Source.asTemplate?
  script := sources.findSome? (Source.asScript? false)
  scriptSetup := sources.findSome? (Source.asScript? true)
  styles := sources.filterMap Source.asStyle?
  customBlocks := sources.filterMap Source.asCustomBlock?

/-- The component with one more block, which does not replace another. -/
def extend (document : Document) (source : Source) : Document where
  template := document.template.or source.asTemplate?
  script := document.script.or (source.asScript? false)
  scriptSetup := document.scriptSetup.or (source.asScript? true)
  styles := document.styles ++ source.asStyle?.toList
  customBlocks := document.customBlocks ++ source.asCustomBlock?.toList

theorem collect_concat (sources : List Source) (source : Source) :
    collect (sources ++ [source]) = (collect sources).extend source := by
  have single {α : Type} (f : Source → Option α) : [source].findSome? f = f source := by
    cases found : f source <;> simp [found]
  have listed {α : Type} (f : Source → Option α) : [source].filterMap f = (f source).toList := by
    cases found : f source <;> simp [found]
  simp only [collect, extend, List.findSome?_append, List.filterMap_append, single, listed]

/-- Whether a slot of the component is taken. -/
def holds (document : Document) : Slot → Bool
  | .template => document.template.isSome
  | .script => document.script.isSome
  | .scriptSetup => document.scriptSetup.isSome

/-- A slot of a collection is taken when one of the blocks asks for it. -/
theorem holds_collect_iff (sources : List Source) (slot : Slot) :
    (collect sources).holds slot = true ↔ slot ∈ sources.filterMap Source.slot? := by
  have asked (source : Source) : source.slot? = some slot ↔
      match slot with
      | .template => source.asTemplate?.isSome = true
      | .script => (source.asScript? false).isSome = true
      | .scriptSetup => (source.asScript? true).isSome = true := by
    cases source with
    | template => cases slot <;> simp [Source.slot?]
    | raw tag attrs content =>
        by_cases isScript : tag = "script" <;> cases isSetup : Attr.has "setup" attrs <;>
          cases slot <;> simp [Source.slot?, isScript, isSetup]
  simp only [List.mem_filterMap, asked]
  cases slot <;> simp only [holds, collect, List.findSome?_isSome_iff]

/-- A block for a free slot, or for none, is taken in. -/
theorem add_of_free {document : Document} {source : Source}
    (free : ∀ slot ∈ source.slot?, document.holds slot = false) :
    (document.add source).2 = .ok (document.extend source) := by
  cases source with
  | template attrs body =>
      have vacant : document.template = none := by simpa [holds] using free .template rfl
      simp [add, extend, vacant]
  | raw tag attrs content =>
      by_cases isScript : tag = "script"
      · subst isScript
        cases isSetup : Attr.has "setup" attrs with
        | true =>
            have vacant : document.scriptSetup = none := by
              simpa [holds] using free .scriptSetup (by simp [Source.slot?, isSetup])
            simp [add, addRaw, addScript, Script.ofAttrs, extend, isSetup, vacant]
        | false =>
            have vacant : document.script = none := by
              simpa [holds] using free .script (by simp [Source.slot?, isSetup])
            simp [add, addRaw, addScript, Script.ofAttrs, extend, isSetup, vacant]
      · by_cases isStyle : tag = "style" <;> simp [add, addRaw, extend, isScript, isStyle]

/-- A block for a slot that is taken is refused. -/
theorem add_of_taken {document : Document} {source : Source} {slot : Slot}
    (takes : source.slot? = some slot) (taken : document.holds slot = true) :
    (document.add source).2 = .error (.duplicate slot) := by
  cases source with
  | template attrs body =>
      cases takes
      simp only [holds] at taken
      simp [add, taken]
  | raw tag attrs content =>
      by_cases isScript : tag = "script"
      · subst isScript
        cases isSetup : Attr.has "setup" attrs with
        | true =>
            have same : slot = .scriptSetup := by simpa [Source.slot?, isSetup] using takes.symm
            subst same
            simp only [holds] at taken
            simp [add, addRaw, addScript, Script.ofAttrs, isSetup, taken]
        | false =>
            have same : slot = .script := by simpa [Source.slot?, isSetup] using takes.symm
            subst same
            simp only [holds] at taken
            simp [add, addRaw, addScript, Script.ofAttrs, isSetup, taken]
      · simp [Source.slot?, isScript] at takes

/-- Blocks of which none repeats a slot are collected. -/
theorem addAll_collect (front : List Source) {back : List Source}
    (distinct : ((front ++ back).filterMap Source.slot?).Nodup) :
    ((collect front).addAll back).2 = .ok (collect (front ++ back)) := by
  induction back generalizing front with
  | nil => simp [addAll]
  | cons source back ih =>
      have free : ∀ slot ∈ source.slot?, (collect front).holds slot = false := by
        intro slot takes
        rw [Bool.eq_false_iff, ne_eq, holds_collect_iff]
        intro taken
        rw [List.filterMap_append, List.filterMap_cons_some takes] at distinct
        exact (List.nodup_append.1 distinct).2.2 slot taken slot List.mem_cons_self rfl
      have added : ((collect front).addAll [source]).2 = .ok (collect (front ++ [source])) := by
        rw [addAll_singleton, add_of_free free, collect_concat]
      rw [List.append_cons] at distinct ⊢
      exact (addAll_append added back).trans (ih _ distinct)

theorem addAll_eq_foldlM (document : Document) (sources : List Source) :
    (document.addAll sources).2 =
      sources.foldlM (fun document source => (document.add source).2) document := by
  induction sources generalizing document with
  | nil => rfl
  | cons source sources ih =>
      rw [addAll_cons, List.foldlM_cons]
      cases (document.add source).2 with
      | error error => rfl
      | ok grown => exact ih grown

/-- Reading an arrangement takes in its blocks from left to right. The component is the
collection of the blocks when no slot is asked for twice, and otherwise the first slot
that is asked for again is reported. -/
theorem read_of_arranged {sources : List Source} {text : List Char}
    (arranged : Source.Arranged sources text) :
    Document.read (String.ofList text) =
        sources.foldlM (fun document source => (document.add source).2) empty ∧
      ((sources.filterMap Source.slot?).Nodup →
        Document.read (String.ofList text) = .ok (collect sources)) ∧
      ∀ front source back slot, sources = front ++ source :: back →
        (front.filterMap Source.slot?).Nodup → source.slot? = some slot →
        slot ∈ front.filterMap Source.slot? →
        Document.read (String.ofList text) = .error (.duplicate slot) := by
  have divided : Document.read (String.ofList text) = (empty.addAll sources).2 := by
    rw [Document.read, readWithEvents, String.toList_ofList, Source.readAll?_of_arranged arranged]
  rw [divided]
  refine ⟨addAll_eq_foldlM empty sources, addAll_collect [], ?_⟩
  intro front source back slot shape distinct takes taken
  have refused := add_of_taken takes ((holds_collect_iff front slot).2 taken)
  have collected : (empty.addAll front).2 = .ok (collect front) := addAll_collect [] distinct
  rw [shape, addAll_append collected, addAll_eq_foldlM, List.foldlM_cons, refused]
  rfl

theorem read_of_arranged_sample :
    let script : Source := .raw "script" [⟨"setup", some ""⟩] "<"
    let template : Source := .template [] "<template>-</template>"
    let before := "a <<!-- <i> --><script setup=''><</script >".toList
    let after := "<<template\n><template>-</template></template>&".toList
    (Source.Arranged [script, template] (before ++ after) ∧
      Document.read (String.ofList (before ++ after)) = .ok (collect [script, template])) ∧
    Source.Arranged [script, script] (before ++ before) ∧
      Document.read (String.ofList (before ++ before)) = .error (.duplicate .scriptSetup) := by
  intro script template before after
  have scriptSpelled := @Source.Spelled.raw "<script setup=''>".toList "script".toList "<".toList
    [' '] [⟨"setup", some ""⟩] (by decide +kernel) (by decide +kernel) (by decide)
  have templateSpelled := @Source.Spelled.template "<template\n>".toList
    "<template>-</template>".toList [] [] (by decide +kernel)
    (@Block.Balanced.nested [] "-".toList [] [] _ .nil (by simp) (by simp) (by simp)
      (Block.Inert.balanced (by decide) (by simp [Block.endsMark, Block.isTagChar])) (.nil _))
    (by simp)
  have arranged {sources : List Source} {text : List Char} (later : Source.Arranged sources text) :
      Source.Arranged (script :: sources) (before ++ text) :=
    @Source.Arranged.comment "a <".toList " <i> ".toList _ _ (by decide +kernel)
      (by decide +kernel) (@Source.Arranged.block [] _ _ _ _ (by decide) scriptSpelled later)
  have first : Source.Arranged [script, template] (before ++ after) :=
    arranged (@Source.Arranged.block "<".toList _ _ _ _ (by decide +kernel) templateSpelled
      (@Source.Arranged.stray "&".toList (by decide +kernel)))
  have second : Source.Arranged [script, script] (before ++ before) := by
    have ends := arranged (arranged (@Source.Arranged.stray [] (by decide)))
    rwa [List.append_nil] at ends
  have collected := (read_of_arranged first).2.1 (by decide +kernel)
  have refused := (read_of_arranged second).2.2 [script] script [] .scriptSetup rfl
    (by decide +kernel) rfl (by decide +kernel)
  exact ⟨⟨first, collected⟩, second, refused⟩

end Document

end SingleFile
