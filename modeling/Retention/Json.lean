/-!
# JSON documents

Documents of null, booleans, natural numbers, texts, lists and records, and
their written form: records and lists open a line per item, indented by two
spaces, and an empty one is written without a line break.

* `Json.pretty`: the written form.
-/

namespace Retention

/-- A JSON document whose numbers are natural numbers. -/
inductive Json where
  | null
  | bool (b : Bool)
  | number (n : Nat)
  | text (s : String)
  | list (items : List Json)
  | record (fields : List (String × Json))
deriving Repr, Inhabited

namespace Json

/-- Four hexadecimal digits. -/
def hex4 (n : Nat) : List Char :=
  let digits := Nat.toDigits 16 n
  List.replicate (4 - digits.length) '0' ++ digits

/-- The way one character of a text is written: the quote, the backslash and
the controls below the space are escaped. -/
def escapedChar (c : Char) : List Char :=
  match c with
  | '"' => ['\\', '"']
  | '\\' => ['\\', '\\']
  | '\x08' => ['\\', 'b']
  | '\x0c' => ['\\', 'f']
  | '\n' => ['\\', 'n']
  | '\r' => ['\\', 'r']
  | '\t' => ['\\', 't']
  | c => if c.toNat < 0x20 then '\\' :: 'u' :: hex4 c.toNat else [c]

/-- A text between quotes. -/
def escapedText (s : String) : List Char :=
  '"' :: s.toList.flatMap escapedChar ++ ['"']

/-- A line break and the indentation of the given depth. -/
def newline (depth : Nat) : List Char :=
  '\n' :: List.replicate (2 * depth) ' '

/-- Written items between two delimiters, a line per item. -/
def enclosed (opening closing : Char) (depth : Nat) : List (List Char) → List Char
  | [] => [opening, closing]
  | first :: rest =>
    opening :: newline (depth + 1) ++ first ++
      rest.flatMap (fun item => ',' :: newline (depth + 1) ++ item) ++
      newline depth ++ [closing]

mutual

/-- The written form of a document at the given depth. -/
def write (depth : Nat) : Json → List Char
  | null => "null".toList
  | bool b => (if b then "true" else "false").toList
  | number n => Nat.toDigits 10 n
  | text s => escapedText s
  | list items => enclosed '[' ']' depth (writeItems (depth + 1) items)
  | record fields => enclosed '\x7b' '\x7d' depth (writeFields (depth + 1) fields)

/-- The written items of a list. -/
def writeItems (depth : Nat) : List Json → List (List Char)
  | [] => []
  | item :: rest => write depth item :: writeItems depth rest

/-- The written fields of a record: name, colon, space, value. -/
def writeFields (depth : Nat) : List (String × Json) → List (List Char)
  | [] => []
  | (name, value) :: rest =>
    (escapedText name ++ [':', ' '] ++ write depth value) :: writeFields depth rest

end

/-- The written form of a whole document. -/
def pretty (d : Json) : String := String.ofList (d.write 0)

end Json
end Retention
