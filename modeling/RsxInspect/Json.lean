import RsxInspect.Number.Shortest

/-!
# JSON text

Values with the fields of an object in a fixed order, and the two ways of writing them: in one line
without spaces, and over several lines with two spaces per level. Characters beyond ASCII stand for
themselves; a number that is not finite is written as `null`.
-/

namespace RsxInspect

/-- A JSON value. The fields of an object keep their order. -/
inductive Json where
  | null
  | bool (b : Bool)
  | nat (n : Nat)
  | number (x : Binary64)
  | string (s : String)
  | array (items : List Json)
  | object (fields : List (String × Json))
  deriving Inhabited

namespace Json

/-- The hexadecimal digit of a number below 16. -/
def hexDigit (n : Nat) : Char := Nat.digitChar n

/-- A character inside a JSON string. -/
def escapeChar (c : Char) : List Char :=
  match c with
  | '"' => ['\\', '"']
  | '\\' => ['\\', '\\']
  | '\n' => ['\\', 'n']
  | '\r' => ['\\', 'r']
  | '\t' => ['\\', 't']
  | '\x08' => ['\\', 'b']
  | '\x0c' => ['\\', 'f']
  | c =>
    if c.toNat < 0x20 then
      ['\\', 'u', '0', '0', hexDigit (c.toNat / 16), hexDigit (c.toNat % 16)]
    else [c]

/-- A string in quotes, behind `out`. -/
def writeString (out s : String) : String :=
  (s.toList.foldl (fun out c => (escapeChar c).foldl String.push out) (out.push '"')).push '"'

/-- A value that is neither a list nor an object, behind `out`. -/
def writeScalar (out : String) : Json → String
  | null => out ++ "null"
  | bool true => out ++ "true"
  | bool false => out ++ "false"
  | nat n => out ++ toString n
  | number x => out ++ (if x.isFinite then Shortest.text x else "null")
  | string s => writeString out s
  | array _ | object _ => out

mutual

/-- The value in one line without spaces, behind `out`. -/
def writeCompact (out : String) : Json → String
  | array items => (writeCompactItems (out.push '[') true items).push ']'
  | object fields => (writeCompactFields (out.push '\x7b') true fields).push '\x7d'
  | null => writeScalar out null
  | bool b => writeScalar out (bool b)
  | nat n => writeScalar out (nat n)
  | number x => writeScalar out (number x)
  | string s => writeScalar out (string s)

def writeCompactItems (out : String) (isFirst : Bool) : List Json → String
  | [] => out
  | item :: items =>
    let out := if isFirst then out else out.push ','
    writeCompactItems (writeCompact out item) false items

def writeCompactFields (out : String) (isFirst : Bool) : List (String × Json) → String
  | [] => out
  | (key, value) :: fields =>
    let out := if isFirst then out else out.push ','
    writeCompactFields (writeCompact ((writeString out key).push ':') value) false fields

end

/-- A line break and the indentation of a level, behind `out`. -/
def breakLine (out : String) (level : Nat) : String :=
  (List.replicate (2 * level) ' ').foldl String.push (out.push '\n')

mutual

/-- The value over several lines, behind `out`, where its own line has the indentation of
`level`. -/
def writePretty (level : Nat) (out : String) : Json → String
  | array [] => out ++ "[]"
  | array (item :: items) =>
    let out := writePretty (level + 1) (breakLine (out.push '[') (level + 1)) item
    (breakLine (writePrettyItems (level + 1) out items) level).push ']'
  | object [] => (out.push '\x7b').push '\x7d'
  | object ((key, value) :: fields) =>
    let out := writeString (breakLine (out.push '\x7b') (level + 1)) key ++ ": "
    let out := writePretty (level + 1) out value
    (breakLine (writePrettyFields (level + 1) out fields) level).push '\x7d'
  | null => writeScalar out null
  | bool b => writeScalar out (bool b)
  | nat n => writeScalar out (nat n)
  | number x => writeScalar out (number x)
  | string s => writeScalar out (string s)

def writePrettyItems (level : Nat) (out : String) : List Json → String
  | [] => out
  | item :: items =>
    writePrettyItems level (writePretty level (breakLine (out.push ',') level) item) items

def writePrettyFields (level : Nat) (out : String) : List (String × Json) → String
  | [] => out
  | (key, value) :: fields =>
    let out := writeString (breakLine (out.push ',') level) key ++ ": "
    writePrettyFields level (writePretty level out value) fields

end

/-- The value in one line without spaces. -/
def compact (j : Json) : String := writeCompact "" j

/-- The value over several lines, with two spaces per level. -/
def pretty (j : Json) : String := writePretty 0 "" j

/-- A value that may be missing. -/
def ofOption (f : α → Json) : Option α → Json
  | none => null
  | some a => f a

end Json

end RsxInspect
