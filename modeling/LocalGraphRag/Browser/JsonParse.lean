import LocalGraphRag.Browser.Strings
import LocalGraphRag.Numbers.Rounding
import LocalGraphRag.Python.Json

/-!
# `JSON.parse`

The values of a JSON text as the browser has them: strings of code units, of which an escape
`\u` is one, and neither the extensions nor the nesting limit of Python's parser. A
`SyntaxError` is `none`.

## Implementation notes

A number keeps its literal, whose value is rounded where it is read. The parser recurses on fuel
that exceeds the length of the text. The property `__proto__` of a parsed object is one like any
other.
-/

namespace LocalGraphRag.Browser

open LocalGraphRag.Numbers LocalGraphRag.Python

inductive JsValue where
  | null
  | bool (b : Bool)
  | num (literal : JsText)
  | str (s : JsText)
  | arr (items : List JsValue)
  | obj (members : List (JsText × JsValue))

def skipSpace (s : JsText) : JsText :=
  s.dropWhile fun c => c = unit ' ' ∨ c = unit '\t' ∨ c = unit '\n' ∨ c = unit '\r'

def isDigit (c : CodeUnit) : Bool := 0x30 ≤ c.val && c.val ≤ 0x39

def hexValue (c : CodeUnit) : Option ℕ :=
  if isDigit c then some (c.val - 0x30)
  else if 0x61 ≤ c.val ∧ c.val ≤ 0x66 then some (c.val - 0x57)
  else if 0x41 ≤ c.val ∧ c.val ≤ 0x46 then some (c.val - 0x37)
  else none

/-- The code unit of the four digits of an escape `\u`. -/
def hexUnit (a b c d : CodeUnit) : Option CodeUnit := do
  let a ← hexValue a
  let b ← hexValue b
  let c ← hexValue c
  let d ← hexValue d
  return codeUnit (((a * 16 + b) * 16 + c) * 16 + d)

/-- The code unit of an escape of one letter. -/
def letterEscape (c : CodeUnit) : Option CodeUnit :=
  if c = unit '"' ∨ c = unit '\\' ∨ c = unit '/' then some c
  else if c = unit 'b' then some (codeUnit 0x08)
  else if c = unit 'f' then some (codeUnit 0x0c)
  else if c = unit 'n' then some (codeUnit 0x0a)
  else if c = unit 'r' then some (codeUnit 0x0d)
  else if c = unit 't' then some (codeUnit 0x09)
  else none

/-- The rest of a string literal after its opening quote. -/
def scanString : JsText → Option (JsText × JsText)
  | [] => none
  | c :: cs =>
      if c = unit '"' then some ([], cs)
      else if c = unit '\\' then
        match cs with
        | [] => none
        | e :: cs =>
            if e = unit 'u' then
              match cs with
              | a :: b :: c :: d :: cs =>
                  (hexUnit a b c d).bind fun u => (scanString cs).map fun p => (u :: p.1, p.2)
              | _ => none
            else (letterEscape e).bind fun u => (scanString cs).map fun p => (u :: p.1, p.2)
      else if c.val < 0x20 then none
      else (scanString cs).map fun p => (c :: p.1, p.2)

section Numbers

def scanSign (s : JsText) : JsText × JsText :=
  if s.head? = some (unit '-') then ([unit '-'], s.tail) else ([], s)

def scanWhole (s : JsText) : Option (JsText × JsText) :=
  if s.head? = some (unit '0') then some ([unit '0'], s.tail)
  else if (s.takeWhile isDigit) = [] then none
  else some (s.takeWhile isDigit, s.dropWhile isDigit)

def scanFraction (s : JsText) : JsText × JsText :=
  if s.head? = some (unit '.') ∧ s.tail.takeWhile isDigit ≠ [] then
    (unit '.' :: s.tail.takeWhile isDigit, s.tail.dropWhile isDigit)
  else ([], s)

def scanExponent (s : JsText) : JsText × JsText :=
  match s with
  | [] => ([], [])
  | c :: cs =>
      let signed := cs.head? = some (unit '+') ∨ cs.head? = some (unit '-')
      let sign := if signed then cs.take 1 else []
      let digits := if signed then cs.drop 1 else cs
      if (c = unit 'e' ∨ c = unit 'E') ∧ digits.takeWhile isDigit ≠ [] then
        (c :: sign ++ digits.takeWhile isDigit, digits.dropWhile isDigit)
      else ([], s)

/-- A number literal. What cannot follow it is left to whoever reads on. -/
def scanNumber (s : JsText) : Option (JsText × JsText) := do
  let (sign, s) := scanSign s
  let (whole, s) ← scanWhole s
  let (fraction, s) := scanFraction s
  let (exponent, s) := scanExponent s
  return (sign ++ whole ++ fraction ++ exponent, s)

end Numbers

/-- The literals that are not strings, numbers, arrays or objects. -/
def literals : List (JsText × JsValue) :=
  [(jsText "null", .null), (jsText "true", .bool true), (jsText "false", .bool false)]

mutual

/-- One value at the start of a text. -/
def scanValue : ℕ → JsText → Option (JsValue × JsText)
  | 0, _ => none
  | _ + 1, [] => none
  | fuel + 1, c :: cs =>
      if c = unit '"' then (scanString cs).map fun p => (.str p.1, p.2)
      else if c = unit '\x7b' then
        if (skipSpace cs).head? = some (unit '\x7d') then some (.obj [], (skipSpace cs).tail)
        else (scanMembers fuel (skipSpace cs)).map fun p => (.obj p.1, p.2)
      else if c = unit '[' then
        if (skipSpace cs).head? = some (unit ']') then some (.arr [], (skipSpace cs).tail)
        else (scanItems fuel (skipSpace cs)).map fun p => (.arr p.1, p.2)
      else
        match literals.find? fun l => l.1.isPrefixOf (c :: cs) with
        | some l => some (l.2, (c :: cs).drop l.1.length)
        | none => (scanNumber (c :: cs)).map fun p => (.num p.1, p.2)

/-- The members of an object from its first key on. -/
def scanMembers : ℕ → JsText → Option (List (JsText × JsValue) × JsText)
  | 0, _ => none
  | fuel + 1, s =>
      if s.head? ≠ some (unit '"') then none
      else do
        let (key, s) ← scanString s.tail
        if (skipSpace s).head? ≠ some (unit ':') then none
        else
          let (value, s) ← scanValue fuel (skipSpace (skipSpace s).tail)
          if (skipSpace s).head? = some (unit '\x7d') then
            return ([(key, value)], (skipSpace s).tail)
          else if (skipSpace s).head? = some (unit ',') then
            let (members, s) ← scanMembers fuel (skipSpace (skipSpace s).tail)
            return ((key, value) :: members, s)
          else none

/-- The items of an array from its first one on. -/
def scanItems : ℕ → JsText → Option (List JsValue × JsText)
  | 0, _ => none
  | fuel + 1, s => do
      let (value, s) ← scanValue fuel s
      if (skipSpace s).head? = some (unit ']') then return ([value], (skipSpace s).tail)
      else if (skipSpace s).head? = some (unit ',') then
        let (items, s) ← scanItems fuel (skipSpace (skipSpace s).tail)
        return (value :: items, s)
      else none

end

/-- `JSON.parse(s)`. -/
def jsonParse (s : JsText) : Option JsValue := do
  let (value, rest) ← scanValue (2 * s.length + 2) (skipSpace s)
  if skipSpace rest = [] then return value else none

namespace JsValue

/-- `value?.key` for a key that no array or string has. -/
def prop (key : JsText) : JsValue → Option JsValue
  | obj members => (members.reverse.find? fun m => m.1 = key).map Prod.snd
  | _ => none

/-- `value?.[0]`. -/
def first : JsValue → Option JsValue
  | arr items => items.head?
  | str s => s.head?.map fun c => str [c]
  | value => value.prop (jsText "0")

/-- A value counts as true. -/
def isTruthy : JsValue → Bool
  | null => false
  | bool b => b
  | num literal => binary64.round (literalValue (literal.map Fin.val)) ≠ 0
  | str s => s ≠ []
  | arr _ => true
  | obj _ => true

end JsValue

end LocalGraphRag.Browser
