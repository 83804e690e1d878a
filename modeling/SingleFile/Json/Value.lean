import SingleFile.Json.Number

/-!
# Values of JSON

Objects keep their members in the order in which the keys first appear. A member
that is given again keeps its place and takes the new value.
-/

namespace SingleFile.Json

/-- A JSON value. -/
inductive Value where
  | null
  | bool (value : Bool)
  | number (value : Number)
  | string (value : String)
  | array (items : List Value)
  | object (members : List (String × Value))

/-- The members of an object, in their order. -/
abbrev Members := List (String × Value)

namespace Members

/-- Give a key a value: in its place when the key is there, and at the end otherwise. -/
def insert (key : String) (value : Value) : Members → Members
  | [] => [(key, value)]
  | (name, old) :: members =>
    if name = key then (name, value) :: members else (name, old) :: insert key value members

/-- The value of a key. -/
def get? (members : Members) (key : String) : Option Value := members.lookup key

/-- The text of a key, if it is there and is a string. -/
def text? (members : Members) (key : String) : Option String :=
  match members.get? key with
  | some (.string text) => some text
  | _ => none

/-- The truth value of a key; false where there is none. -/
def flag (members : Members) (key : String) : Bool :=
  match members.get? key with
  | some (.bool holds) => holds
  | _ => false

/-- A member's value is smaller than the object. -/
theorem sizeOf_lt_of_get? {members : Members} {key : String} {value : Value}
    (found : members.get? key = some value) : sizeOf value < sizeOf members := by
  induction members with
  | nil => simp [get?] at found
  | cons member members ih =>
      obtain ⟨name, other⟩ := member
      simp only [get?, List.lookup_cons] at found
      split at found
      next =>
        cases found
        simp only [List.cons.sizeOf_spec, Prod.mk.sizeOf_spec]
        omega
      next =>
        have := ih found
        simp only [List.cons.sizeOf_spec, Prod.mk.sizeOf_spec]
        omega

end Members

namespace Value

/-- The value of a key, if the value is an object that has it. -/
def field? (value : Value) (key : String) : Option Value :=
  match value with
  | .object members => Members.get? members key
  | _ => none

/-- A lower-case hexadecimal digit. -/
def hexDigit (n : Nat) : Char := Nat.digitChar n

/-- A character inside a quoted string. Quotes, backslashes and control characters are
escaped, and everything else stands for itself. -/
def escape (c : Char) : String :=
  if c = '"' then "\\\""
  else if c = '\\' then "\\\\"
  else if c = '\x08' then "\\b"
  else if c = '\t' then "\\t"
  else if c = '\n' then "\\n"
  else if c = '\x0c' then "\\f"
  else if c = '\r' then "\\r"
  else if c.toNat < 0x20 then
    "\\u00" ++ String.ofList [hexDigit (c.toNat / 16), hexDigit (c.toNat % 16)]
  else String.singleton c

/-- A string in double quotes. -/
def quote (text : String) : String :=
  "\"" ++ text.toList.foldl (fun written c => written ++ escape c) "" ++ "\""

mutual

/-- A value as text, without blanks. -/
def render : Value → String
  | .null => "null"
  | .bool value => if value then "true" else "false"
  | .number value => value.render
  | .string value => quote value
  | .array items => "[" ++ renderItems items ++ "]"
  | .object members => "\x7b" ++ renderMembers members ++ "\x7d"

/-- Values with commas between them. -/
def renderItems : List Value → String
  | [] => ""
  | [item] => item.render
  | item :: items => item.render ++ "," ++ renderItems items

/-- Members with commas between them. -/
def renderMembers : List (String × Value) → String
  | [] => ""
  | [(key, value)] => quote key ++ ":" ++ value.render
  | (key, value) :: members => quote key ++ ":" ++ value.render ++ "," ++ renderMembers members

end

end Value

end SingleFile.Json
