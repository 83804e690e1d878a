import SingleFile.Compiler.Descriptor
import SingleFile.Proofs.Compiler.Node

/-!
# Components as compiler output

A compiler's record of a component has an entry for each block. Attributes are a map
in which `true` stands for a missing value, so their names have to be distinct. The
tree of a template is a root, or the template element itself, and the record stands
by itself or under a key of its own.

Reading gives back the component from everything that stands for it.

Main statement: `read_of_encodes`, for nodes and for components.
-/

namespace SingleFile.Compiler

open SingleFile.Markup SingleFile.Json

/-! ## What stands for a component -/

/-- The value of an attribute in a map. -/
def attrValue (attr : Attr) : Value :=
  match attr.value with
  | some text => .string text
  | none => .bool true

/-- Attributes as a map that they are entered into one after the other. -/
def attrMembers (attrs : List Attr) : Members :=
  attrs.foldl (fun members attr => Members.insert attr.name (attrValue attr) members) []

/-- What a key holds for a text. -/
inductive HoldsText : String → Option Value → Prop where
  | given {text : String} : HoldsText text (some (.string text))
  | omitted : HoldsText "" none

/-- What a key holds for a flag. -/
inductive HoldsFlag : Bool → Option Value → Prop where
  | given {holds : Bool} : HoldsFlag holds (some (.bool holds))
  | omitted : HoldsFlag false none
  | null : HoldsFlag false (some .null)

/-- What a key holds for the mark of a setup script, which may also be a text. -/
inductive HoldsSetup : Bool → Option Value → Prop where
  | flag {holds : Bool} {held : Option Value} : HoldsFlag holds held → HoldsSetup holds held
  | text {text : String} : HoldsSetup true (some (.string text))

/-- The members of an object stand for a block other than a template. -/
structure EncodesBlock (type : String) (lang : Option String) (isSetup isScoped : Bool)
    (attrs : List Attr) (content : String) (members : Members) : Prop where
  type : HoldsText type (members.get? "type")
  content : HoldsText content (members.get? "content")
  attrs : members.get? "attrs" = some (.object (attrMembers attrs))
  lang : Optional (fun text value => value = .string text) lang (members.get? "lang")
  setup : HoldsSetup isSetup (members.get? "setup")
  scope : HoldsFlag isScoped (members.get? "scoped")

/-- A value stands for a script; its type is not looked at, nor whether it is scoped. -/
inductive EncodesScript : Script → Value → Prop where
  | intro {script : Script} {type : String} {isScoped : Bool} {members : Members} :
      EncodesBlock type script.lang script.isSetup isScoped script.attrs script.content members →
      EncodesScript script (.object members)

/-- A value stands for a style. -/
inductive EncodesStyle : Style → Value → Prop where
  | intro {style : Style} {type : String} {isSetup : Bool} {members : Members} :
      EncodesBlock type style.lang isSetup style.isScoped style.attrs style.content members →
      EncodesStyle style (.object members)

/-- A value stands for a custom block. -/
inductive EncodesCustomBlock : CustomBlock → Value → Prop where
  | intro {block : CustomBlock} {lang : Option String} {isSetup isScoped : Bool}
      {members : Members} :
      EncodesBlock block.type lang isSetup isScoped block.attrs block.content members →
      EncodesCustomBlock block (.object members)

/-- A value stands for the content of a template: as a root, whose source does not matter,
or as the template element. -/
inductive EncodesForest : List Node → Value → Prop where
  | root {children : List Node} {members : Members} {values : List Value} :
      members.get? "type" = some (typeOf .root) →
      members.get? "children" = some (.array values) → Listed Encodes children values →
      EncodesForest children (.object members)
  | element {children : List Node} {props : List Property} {selfClosing : Bool}
      {value : Value} :
      Portable (propRootAttrsAll props) →
      Encodes (.element "template" props children selfClosing) value →
      EncodesForest children value

/-- A value stands for a template. -/
inductive EncodesTemplate : Template → Value → Prop where
  | intro {template : Template} {content : String} {ast : Value} {members : Members} :
      HoldsText content (members.get? "content") →
      members.get? "attrs" = some (.object (attrMembers template.attrs)) →
      members.get? "ast" = some ast → EncodesForest template.children ast →
      EncodesTemplate template (.object members)

/-- What a key holds for a list. -/
inductive HoldsList (encodes : α → Value → Prop) : List α → Option Value → Prop where
  | given {items : List α} {values : List Value} :
      Listed encodes items values → HoldsList encodes items (some (.array values))
  | omitted : HoldsList encodes [] none

/-- The members of a record stand for a component. -/
structure EncodesRecord (document : Document) (members : Members) : Prop where
  template : Optional EncodesTemplate document.template (members.get? "template")
  script : Optional EncodesScript document.script (members.get? "script")
  scriptSetup : Optional EncodesScript document.scriptSetup (members.get? "scriptSetup")
  styles : HoldsList EncodesStyle document.styles (members.get? "styles")
  customBlocks : HoldsList EncodesCustomBlock document.customBlocks (members.get? "customBlocks")

/-- A value stands for a component. -/
inductive EncodesDocument : Document → Value → Prop where
  | bare {document : Document} {members : Members} :
      members.get? "descriptor" = none → EncodesRecord document members →
      EncodesDocument document (.object members)
  | wrapped {document : Document} {outer members : Members} :
      outer.get? "descriptor" = some (.object members) → EncodesRecord document members →
      EncodesDocument document (.object outer)

/-! ## Attributes -/

/-- No two attributes of a block have the same name. -/
def Distinct (attrs : List Attr) : Prop := (attrs.map Attr.name).Nodup

instance (attrs : List Attr) : Decidable (Distinct attrs) :=
  inferInstanceAs (Decidable (List.Nodup _))

theorem insert_of_not_mem {key : String} {members : Members}
    (fresh : key ∉ members.map Prod.fst) (value : Value) :
    Members.insert key value members = members ++ [(key, value)] := by
  induction members with
  | nil => rfl
  | cons member members ih =>
      rcases member with ⟨name, old⟩
      simp only [List.map_cons, List.mem_cons, not_or] at fresh
      simp [Members.insert, Ne.symm fresh.1, ih fresh.2]

/-- Entering attributes with new names into a map adds them at its end. -/
theorem foldl_insert_eq (attrs : List Attr) (members : Members)
    (distinct : (members.map Prod.fst ++ attrs.map Attr.name).Nodup) :
    attrs.foldl (fun members attr => Members.insert attr.name (attrValue attr) members) members =
      members ++ attrs.map fun attr => (attr.name, attrValue attr) := by
  induction attrs generalizing members with
  | nil => simp
  | cons attr attrs ih =>
      rw [List.map_cons, List.append_cons] at distinct
      have fresh : attr.name ∉ members.map Prod.fst := by
        have front := (List.nodup_append.1 distinct).1
        exact fun member => (List.nodup_append.1 front).2.2 _ member _ (by simp) rfl
      have later := ih (members ++ [(attr.name, attrValue attr)]) (by simpa using distinct)
      rw [List.foldl_cons, insert_of_not_mem fresh, later]
      simp

theorem attrMembers_eq {attrs : List Attr} (distinct : Distinct attrs) :
    attrMembers attrs = attrs.map fun attr => (attr.name, attrValue attr) :=
  foldl_insert_eq attrs [] distinct

theorem readAttr_attrValue (attr : Attr) : readAttr attr.name (attrValue attr) = .ok attr := by
  rcases attr with ⟨name, value⟩
  cases value <;> rfl

theorem readAttrs_attrMembers {attrs : List Attr} (distinct : Distinct attrs) :
    readAttrs (attrMembers attrs) = .ok attrs := by
  rw [attrMembers_eq distinct]
  clear distinct
  induction attrs with
  | nil => rfl
  | cons attr attrs ih => simp [readAttrs, readAttr_attrValue, ih]

/-! ## Entries -/

theorem text?_of_holdsText {members : Members} {name text : String}
    (holds : HoldsText text (members.get? name)) (index : Nat) :
    (Record.named members).text? index name = some text := by
  generalize found : members.get? name = held at holds
  cases holds with
  | given => simp [Record.text?, Record.field?, found]
  | omitted => simp [Record.text?, Record.field?, found]

theorem members?_eq {members inner : Members} {name : String}
    (found : members.get? name = some (.object inner)) (index : Nat) :
    (Record.named members).members? index name = some inner := by
  simp [Record.members?, Record.field?, found]

theorem optional?_textOf? {members : Members} {name : String} {text : Option String}
    (optional : Optional (fun text value => value = .string text) text (members.get? name))
    (index : Nat) : (Record.named members).optional? index name textOf? = some text := by
  generalize found : members.get? name = held at optional
  cases optional with
  | omitted => simp [Record.optional?, Record.field?, found]
  | null => simp [Record.optional?, Record.field?, found]
  | present equal =>
      subst equal
      simp [Record.optional?, Record.field?, found, textOf?]

theorem optional?_boolOf? {members : Members} {name : String} {flag : Bool}
    (holds : HoldsFlag flag (members.get? name)) (index : Nat) :
    ∃ given, (Record.named members).optional? index name boolOf? = some given ∧
      given.getD false = flag := by
  generalize found : members.get? name = held at holds
  cases holds with
  | given => exact ⟨some flag, by simp [Record.optional?, Record.field?, found, boolOf?], rfl⟩
  | omitted => exact ⟨none, by simp [Record.optional?, Record.field?, found], rfl⟩
  | null => exact ⟨none, by simp [Record.optional?, Record.field?, found], rfl⟩

/-- The mark of a setup script is kept as it is, and only then counts as a flag. -/
theorem optional?_of_holdsSetup {members : Members} {name : String} {flag : Bool}
    (holds : HoldsSetup flag (members.get? name)) (index : Nat) :
    ∃ setup, (Record.named members).optional? index name some = some setup ∧
      ∀ entry : BlockEntry, entry.setup = setup → entry.isSetup = flag := by
  generalize found : members.get? name = held at holds
  cases holds with
  | text =>
      refine ⟨_, by simp [Record.optional?, Record.field?, found]; rfl, fun entry same => ?_⟩
      simp [BlockEntry.isSetup, same]
  | flag holds =>
      cases holds with
      | given =>
          refine ⟨_, by simp [Record.optional?, Record.field?, found]; rfl, fun entry same => ?_⟩
          cases flag <;> simp [BlockEntry.isSetup, same]
      | omitted =>
          refine ⟨none, by simp [Record.optional?, Record.field?, found], fun entry same => ?_⟩
          simp [BlockEntry.isSetup, same]
      | null =>
          refine ⟨none, by simp [Record.optional?, Record.field?, found], fun entry same => ?_⟩
          simp [BlockEntry.isSetup, same]

/-- A value has the shape of an entry, which is converted to an item. -/
def Describes (decode? : Value → Option α) (convert : α → Except Error β) (value : Value)
    (item : β) : Prop :=
  ∃ entry, decode? value = some entry ∧ convert entry = .ok item

/-- The fields of an entry for a block. -/
theorem ofValue?_of_encodesBlock {type : String} {lang : Option String}
    {isSetup isScoped : Bool} {attrs : List Attr} {content : String} {members : Members}
    (encodes : EncodesBlock type lang isSetup isScoped attrs content members) :
    ∃ setup scope,
      BlockEntry.ofValue? (.object members) =
        some ⟨type, content, attrMembers attrs, lang, setup, scope⟩ ∧
      BlockEntry.isSetup ⟨type, content, attrMembers attrs, lang, setup, scope⟩ = isSetup ∧
      scope.getD false = isScoped := by
  rcases optional?_of_holdsSetup encodes.setup 4 with ⟨setup, readSetup, isSetup⟩
  rcases optional?_boolOf? encodes.scope 5 with ⟨scope, readScope, isScoped⟩
  refine ⟨setup, scope, ?_, isSetup _ rfl, isScoped⟩
  simp [BlockEntry.ofValue?, Record.ofValue?, text?_of_holdsText encodes.type,
    text?_of_holdsText encodes.content, members?_eq encodes.attrs,
    optional?_textOf? encodes.lang, readSetup, readScope]

theorem describes_script {script : Script} {value : Value} (distinct : Distinct script.attrs)
    (encodes : EncodesScript script value) :
    Describes BlockEntry.ofValue? BlockEntry.toScript value script := by
  cases encodes with
  | intro encodes =>
      rcases ofValue?_of_encodesBlock encodes with ⟨setup, scope, shape, isSetup, -⟩
      exact ⟨_, shape, by simp [BlockEntry.toScript, readAttrs_attrMembers distinct, isSetup]⟩

theorem describes_style {style : Style} {value : Value} (distinct : Distinct style.attrs)
    (encodes : EncodesStyle style value) :
    Describes BlockEntry.ofValue? BlockEntry.toStyle value style := by
  cases encodes with
  | intro encodes =>
      rcases ofValue?_of_encodesBlock encodes with ⟨setup, scope, shape, -, isScoped⟩
      exact ⟨_, shape, by simp [BlockEntry.toStyle, readAttrs_attrMembers distinct, isScoped]⟩

theorem describes_customBlock {block : CustomBlock} {value : Value}
    (distinct : Distinct block.attrs) (encodes : EncodesCustomBlock block value) :
    Describes BlockEntry.ofValue? BlockEntry.toCustomBlock value block := by
  cases encodes with
  | intro encodes =>
      rcases ofValue?_of_encodesBlock encodes with ⟨setup, scope, shape, -⟩
      exact ⟨_, shape, by simp [BlockEntry.toCustomBlock, readAttrs_attrMembers distinct]⟩

/-- The tree of a template gives its content in both shapes. -/
theorem readForest_of_encodes {children : List Node} {value : Value}
    (portable : Portable (rootAttrsAll children)) (encodes : EncodesForest children value) :
    readForest value = .ok children := by
  cases encodes with
  | root type found listed =>
      have nodes := readNodes_of_listed children portable listed 0
      simp [readForest, kindOf_eq_ok type, readChildren_eq found, nodes]
  | @element props selfClosing _ propsOk encodes =>
      have elementOk : Portable (rootAttrs (.element "template" props children selfClosing)) :=
        portable_append.2 ⟨propsOk, portable⟩
      have read := readNode_of_encodes _ elementOk encodes
      cases encodes with
      | element type => simp [readForest, kindOf_eq_ok type, read]

theorem EncodesForest.ne_null {children : List Node} {value : Value}
    (encodes : EncodesForest children value) : value ≠ .null := by
  cases encodes with
  | root => simp
  | element _ encodes => exact encodes.ne_null

theorem describes_template {template : Template} {value : Value}
    (distinct : Distinct template.attrs) (portable : Portable (rootAttrsAll template.children))
    (encodes : EncodesTemplate template value) :
    Describes TemplateEntry.ofValue? TemplateEntry.toTemplate value template := by
  cases encodes with
  | @intro text ast members content attrs found forest =>
      have proper : ast ≠ .null := forest.ne_null
      have tree : (Record.named members).optional? 2 "ast" some = some (some ast) := by
        rw [Record.optional?, Record.field?, found]
        cases ast <;> simp_all
      refine ⟨⟨text, attrMembers template.attrs, some ast⟩, ?_, ?_⟩
      · simp [TemplateEntry.ofValue?, Record.ofValue?, text?_of_holdsText content,
          members?_eq attrs, tree]
      · simp [TemplateEntry.toTemplate, readAttrs_attrMembers distinct,
          readForest_of_encodes portable forest]

/-! ## Whole records -/

theorem optional?_of_optional {decode? : Value → Option α} {convert : α → Except Error β}
    {encodes : β → Value → Prop} {item : Option β} {members : Members} {name : String}
    (optional : Optional encodes item (members.get? name))
    (describes : ∀ part ∈ item, ∀ value, encodes part value →
      Describes decode? convert value part)
    (refused : decode? .null = none) (index : Nat) :
    ∃ entry, (Record.named members).optional? index name decode? = some entry ∧
      convertOption convert entry = .ok item := by
  generalize found : members.get? name = held at optional
  cases optional with
  | omitted => exact ⟨none, by simp [Record.optional?, Record.field?, found], rfl⟩
  | null => exact ⟨none, by simp [Record.optional?, Record.field?, found], rfl⟩
  | @present part value encodes =>
      rcases describes part rfl value encodes with ⟨entry, shape, converted⟩
      refine ⟨some entry, ?_, by simp [convertOption, converted, Except.map]⟩
      rw [Record.optional?, Record.field?, found]
      cases value <;> simp_all

theorem mapM_of_listed {decode? : Value → Option α} {convert : α → Except Error β}
    {encodes : β → Value → Prop} {items : List β} {values : List Value}
    (listed : Listed encodes items values)
    (describes : ∀ item ∈ items, ∀ value, encodes item value →
      Describes decode? convert value item) :
    ∃ entries, values.mapM decode? = some entries ∧ convertList convert entries = .ok items := by
  induction listed with
  | nil => exact ⟨[], rfl, rfl⟩
  | @cons item value items values encodes _ ih =>
      rcases List.forall_mem_cons.1 describes with ⟨first, others⟩
      rcases first value encodes with ⟨entry, shape, converted⟩
      rcases ih others with ⟨entries, shapes, convertedAll⟩
      refine ⟨entry :: entries, ?_, ?_⟩
      · simp [shape, shapes]
      · simp [convertList, converted, convertedAll]

theorem list?_of_holdsList {decode? : Value → Option α} {convert : α → Except Error β}
    {encodes : β → Value → Prop} {items : List β} {members : Members} {name : String}
    (holds : HoldsList encodes items (members.get? name))
    (describes : ∀ item ∈ items, ∀ value, encodes item value →
      Describes decode? convert value item) (index : Nat) :
    ∃ entries, (Record.named members).list? index name decode? = some entries ∧
      convertList convert entries = .ok items := by
  generalize found : members.get? name = held at holds
  cases holds with
  | given listed =>
      rcases mapM_of_listed listed describes with ⟨entries, shapes, converted⟩
      exact ⟨entries, by simp [Record.list?, Record.field?, found, shapes], converted⟩
  | omitted => exact ⟨[], by simp [Record.list?, Record.field?, found], rfl⟩

/-- A component that a record can carry: names are distinct in every block, and the
attributes of the roots in its markup fit into an opening tag. -/
structure Recordable (document : Document) : Prop where
  template : ∀ template ∈ document.template, Distinct template.attrs
  nodes : ∀ template ∈ document.template, Portable (rootAttrsAll template.children)
  script : ∀ script ∈ document.script, Distinct script.attrs
  scriptSetup : ∀ script ∈ document.scriptSetup, Distinct script.attrs
  styles : ∀ style ∈ document.styles, Distinct style.attrs
  customBlocks : ∀ block ∈ document.customBlocks, Distinct block.attrs

theorem describes_record {document : Document} (recordable : Recordable document)
    {members : Members} (encodes : EncodesRecord document members) :
    Describes Descriptor.ofValue? Descriptor.toDocument (.object members) document := by
  rcases optional?_of_optional encodes.template (fun template isTemplate _ =>
    describes_template (recordable.template template isTemplate)
      (recordable.nodes template isTemplate)) rfl 0 with ⟨template, readTemplate, toTemplate⟩
  rcases optional?_of_optional encodes.script (fun script isScript _ =>
    describes_script (recordable.script script isScript)) rfl 1 with
    ⟨script, readScript, toScript⟩
  rcases optional?_of_optional encodes.scriptSetup (fun script isScript _ =>
    describes_script (recordable.scriptSetup script isScript)) rfl 2 with
    ⟨scriptSetup, readScriptSetup, toScriptSetup⟩
  rcases list?_of_holdsList encodes.styles (fun style isStyle _ =>
    describes_style (recordable.styles style isStyle)) 3 with ⟨styles, readStyles, toStyles⟩
  rcases list?_of_holdsList encodes.customBlocks (fun block isBlock _ =>
    describes_customBlock (recordable.customBlocks block isBlock)) 4 with
    ⟨customBlocks, readCustomBlocks, toCustomBlocks⟩
  refine ⟨⟨template, script, scriptSetup, styles, customBlocks⟩, ?_, ?_⟩
  · simp [Descriptor.ofValue?, Record.ofValue?, readTemplate, readScript, readScriptSetup,
      readStyles, readCustomBlocks]
  · simp [Descriptor.toDocument, toTemplate, toScript, toScriptSetup, toStyles, toCustomBlocks]

/-- A component is read from every value that stands for it. -/
theorem readDocument_of_encodes {document : Document} (recordable : Recordable document)
    {value : Value} (encodes : EncodesDocument document value) :
    readDocument value = .ok document := by
  cases encodes with
  | bare free encodes =>
      rcases describes_record recordable encodes with ⟨descriptor, shape, converted⟩
      simp [readDocument, Value.field?, free, shape, converted]
  | wrapped found encodes =>
      rcases describes_record recordable encodes with ⟨descriptor, shape, converted⟩
      simp [readDocument, Value.field?, found, shape, converted]

/-! ## A record for every component -/

def blockMembers (type : String) (lang : Option String) (isSetup isScoped : Bool)
    (attrs : List Attr) (content : String) : Members :=
  [("type", .string type), ("content", .string content),
    ("attrs", .object (attrMembers attrs)), ("lang", lang.elim .null .string),
    ("setup", .bool isSetup), ("scoped", .bool isScoped)]

def encodeScript (script : Script) : Value :=
  .object (blockMembers "script" script.lang script.isSetup false script.attrs script.content)

def encodeStyle (style : Style) : Value :=
  .object (blockMembers "style" style.lang false style.isScoped style.attrs style.content)

def encodeCustomBlock (block : CustomBlock) : Value :=
  .object (blockMembers block.type none false false block.attrs block.content)

def encodeTemplate (template : Template) : Value :=
  .object [("attrs", .object (attrMembers template.attrs)),
    ("ast", encodeNode (.root template.attrs template.children))]

/-- The plainest record that stands for a component. -/
def encodeDocument (document : Document) : Value :=
  .object [("template", document.template.elim .null encodeTemplate),
    ("script", document.script.elim .null encodeScript),
    ("scriptSetup", document.scriptSetup.elim .null encodeScript),
    ("styles", .array (document.styles.map encodeStyle)),
    ("customBlocks", .array (document.customBlocks.map encodeCustomBlock))]

theorem optional_elim {encodes : α → Value → Prop} {encode : α → Value}
    (each : ∀ item, encodes item (encode item)) (item : Option α) :
    Optional encodes item (some (item.elim .null encode)) := by
  cases item with
  | none => exact .null
  | some item => exact .present (each item)

theorem encodesBlock_blockMembers (type : String) (lang : Option String)
    (isSetup isScoped : Bool) (attrs : List Attr) (content : String) :
    EncodesBlock type lang isSetup isScoped attrs content
      (blockMembers type lang isSetup isScoped attrs content) where
  type := .given
  content := .given
  attrs := rfl
  lang := @optional_elim _ (fun text value => value = .string text) _ (fun _ => rfl) lang
  setup := .flag .given
  scope := .given

theorem encodesDocument_encodeDocument (document : Document) :
    EncodesDocument document (encodeDocument document) := by
  have template : ∀ template, EncodesTemplate template (encodeTemplate template) :=
    fun template => .intro .omitted rfl rfl (.root rfl rfl (listed_encodeNodes _))
  have script : ∀ script, EncodesScript script (encodeScript script) :=
    fun script => .intro (encodesBlock_blockMembers ..)
  have style : ∀ style, EncodesStyle style (encodeStyle style) :=
    fun style => .intro (encodesBlock_blockMembers ..)
  have block : ∀ block, EncodesCustomBlock block (encodeCustomBlock block) :=
    fun block => .intro (encodesBlock_blockMembers ..)
  exact .bare rfl ⟨optional_elim template _, optional_elim script _, optional_elim script _,
    .given (listed_map style _), .given (listed_map block _)⟩

/-- Compiler output is read as what it stands for, and there is output for every node and
every component. -/
theorem read_of_encodes :
    (∀ node value, Portable (rootAttrs node) → Encodes node value → readNode value = .ok node) ∧
    (∀ document value, Recordable document → EncodesDocument document value →
      readDocument value = .ok document) ∧
    (∀ node, Encodes node (encodeNode node)) ∧
    ∀ document, EncodesDocument document (encodeDocument document) :=
  ⟨fun node _ portable => readNode_of_encodes node portable,
    fun _ _ recordable => readDocument_of_encodes recordable,
    encodes_encodeNode, encodesDocument_encodeDocument⟩

/-- A record under its key, whose tree is the template element. One modifier is an object,
one option is left out and another is `null`, and a root stands in an attribute. -/
theorem read_of_encodes_sample :
    readNode (.object [("content", .string "x"), ("type", typeOf .text)]) = .ok (.text "x") ∧
    readDocument (.object [("descriptor", .object [
      ("template", .object [
        ("attrs", .object [("lang", .string "p"), ("inert", .bool true)]),
        ("ast", .object [("type", typeOf .element), ("tag", .string "template"),
          ("props", .array []), ("isSelfClosing", .bool false),
          ("children", .array [.object [("type", typeOf .element), ("tag", .string "b"),
            ("props", .array [
              .object [("type", typeOf .directive), ("name", .string "on"), ("arg", .null),
                ("modifiers", .array [.string "a", .object [("content", .string "c")]])],
              .object [("type", typeOf .attribute), ("name", .string "k"),
                ("value", .object [("type", typeOf .root), ("children", .array []),
                  ("source", .string "<template id=\"i\">x")])]]),
            ("children", .array []), ("isSelfClosing", .bool true)]])])]),
      ("styles", .array [.object [("content", .string "s"), ("attrs", .object [])]])])]) =
      .ok ⟨some ⟨[⟨"lang", some "p"⟩, ⟨"inert", none⟩],
          [.element "b" [.directive "on" none ["a", "c"] none,
            .attribute "k" (some (.root [⟨"id", some "i"⟩] []))] [] true]⟩,
        none, none, [⟨none, false, [], "s"⟩], []⟩ := by
  refine ⟨read_of_encodes.1 _ _ (by decide) (.text rfl rfl), read_of_encodes.2.1 _ _ ?_ ?_⟩
  · exact ⟨by decide, by decide, by decide, by decide, by decide, by decide⟩
  · refine .wrapped rfl ⟨.present (.intro .omitted rfl rfl ?_), .omitted, .omitted,
      .given (.cons (.intro ⟨.omitted, .given, rfl, .omitted, .flag .omitted, .omitted⟩) .nil),
      .omitted⟩
    refine @EncodesForest.element _ [] false _ (by decide) (.element rfl rfl rfl .nil rfl
      (.cons (.element rfl rfl rfl (.cons ?_ (.cons ?_ .nil)) rfl .nil rfl) .nil) rfl)
    · exact .directive rfl rfl .null rfl (.cons .text (.cons (.expression rfl) .nil)) .omitted
    · exact .attribute rfl rfl (.present (@Encodes.root _ _ _ "x" _ rfl rfl rfl .nil))

end SingleFile.Compiler
