import LocalGraphRag.Python.Text

/-!
# JSON texts

`loads` follows Python's `json.loads` on a `str`: its scanner, its extensions
(`NaN`, the infinities, lone surrogates in `\u` escapes) and its errors, all of
which are one `none`. A number keeps its literal.

## Implementation notes

The scanner recurses on fuel that exceeds the length of the text. The nesting
limit is Python's recursion limit at the call: deeper arrays and objects raise
`RecursionError`.
-/

namespace LocalGraphRag.Python

/-- The code point of a character. -/
def cp (c : Char) : CodePoint := Fin.ofNat 0x110000 c.toNat

/-- A decoded JSON value. -/
inductive Json where
  | null
  | bool (b : Bool)
  | num (literal : Text)
  | str (s : Text)
  | arr (items : List Json)
  | obj (members : List (Text × Json))

namespace Json

/-- `dict.get(key)` on the members of an object: the last one with the key. -/
def get (members : List (Text × Json)) (key : Text) : Option Json :=
  (members.reverse.find? fun m => m.1 = key).map fun m => m.2

/-- Drop the JSON whitespace at the start of a text. -/
def skipSpace (s : Text) : Text :=
  s.dropWhile fun c => c = cp ' ' ∨ c = cp '\t' ∨ c = cp '\n' ∨ c = cp '\r'

def isDigit (c : CodePoint) : Bool := 0x30 ≤ c.val && c.val ≤ 0x39

/-- The value of a hexadecimal digit. -/
def hexDigit (c : CodePoint) : Option Nat :=
  if isDigit c then some (c.val - 0x30)
  else if 0x61 ≤ c.val ∧ c.val ≤ 0x66 then some (c.val - 0x57)
  else if 0x41 ≤ c.val ∧ c.val ≤ 0x46 then some (c.val - 0x37)
  else none

/-- The four digits of a `\u` escape. -/
def scanHex4 : Text → Option (Nat × Text)
  | a :: b :: c :: d :: rest => do
      let a ← hexDigit a
      let b ← hexDigit b
      let c ← hexDigit c
      let d ← hexDigit d
      return (((a * 16 + b) * 16 + c) * 16 + d, rest)
  | _ => none

/-- A `\u` escape after its `\u`: a high surrogate followed by the escape of a
low one is one code point, any other surrogate stays alone. -/
def scanUnicode (s : Text) : Option (CodePoint × Text) := do
  let (u, rest) ← scanHex4 s
  if 0xd800 ≤ u ∧ u ≤ 0xdbff ∧ (text "\\u").isPrefixOf rest then
    let (v, rest') ← scanHex4 (rest.drop 2)
    if 0xdc00 ≤ v ∧ v ≤ 0xdfff then
      return (Fin.ofNat 0x110000 (0x10000 + (u - 0xd800) * 0x400 + (v - 0xdc00)), rest')
    else return (Fin.ofNat 0x110000 u, rest)
  else return (Fin.ofNat 0x110000 u, rest)

/-- The code point of a one-letter escape. -/
def simpleEscape (c : CodePoint) : Option CodePoint :=
  if c = cp '"' ∨ c = cp '\\' ∨ c = cp '/' then some c
  else if c = cp 'b' then some 0x08
  else if c = cp 'f' then some 0x0c
  else if c = cp 'n' then some 0x0a
  else if c = cp 'r' then some 0x0d
  else if c = cp 't' then some 0x09
  else none

/-- The rest of a string literal after its opening quote. -/
def scanString : Nat → Text → Option (Text × Text)
  | 0, _ => none
  | _ + 1, [] => none
  | fuel + 1, c :: cs =>
      if c = cp '"' then some ([], cs)
      else if c = cp '\\' then
        match cs with
        | [] => none
        | e :: cs => do
            let (d, rest) ←
              if e = cp 'u' then scanUnicode cs else (simpleEscape e).map fun d => (d, cs)
            let (t, rest) ← scanString fuel rest
            return (d :: t, rest)
      else if c.val < 0x20 then none
      else do
        let (t, rest) ← scanString fuel cs
        return (c :: t, rest)

/-- The longest run of digits, and what follows it. -/
def spanDigits (s : Text) : Text × Text := s.span isDigit

/-- A number literal; an integer of more than 4300 digits is not converted. -/
def scanNumber (s : Text) : Option (Text × Text) := do
  let (sign, s) := match s with
    | c :: cs => if c = cp '-' then ([c], cs) else ([], s)
    | [] => ([], [])
  let (whole, s) ← match s with
    | c :: cs =>
        if c = cp '0' then some ([c], cs)
        else if isDigit c then some (spanDigits s)
        else none
    | [] => none
  let (fraction, s) := match s with
    | c :: cs =>
        if c = cp '.' ∧ (spanDigits cs).1 ≠ [] then
          (c :: (spanDigits cs).1, (spanDigits cs).2)
        else ([], s)
    | [] => ([], s)
  let (exponent, s) := match s with
    | c :: cs =>
        if c = cp 'e' ∨ c = cp 'E' then
          let (sgn, ds) := match cs with
            | d :: ds => if d = cp '+' ∨ d = cp '-' then ([d], ds) else ([], cs)
            | [] => ([], [])
          if (spanDigits ds).1 ≠ [] then
            (c :: sgn ++ (spanDigits ds).1, (spanDigits ds).2)
          else ([], s)
        else ([], s)
    | [] => ([], s)
  if fraction = [] ∧ exponent = [] ∧ 4300 < whole.length then none
  else return (sign ++ whole ++ fraction ++ exponent, s)

/-- The literals that are not strings, numbers, arrays or objects. -/
def constants : List (Text × Json) :=
  [(text "null", .null), (text "true", .bool true), (text "false", .bool false),
    (text "NaN", .num (text "NaN")), (text "Infinity", .num (text "Infinity")),
    (text "-Infinity", .num (text "-Infinity"))]

mutual

/-- One value at the start of a text. -/
def scanOnce : Nat → Nat → Text → Option (Json × Text)
  | 0, _, _ => none
  | _ + 1, _, [] => none
  | fuel + 1, depth, c :: cs =>
      if c = cp '"' then (scanString (cs.length + 1) cs).map fun p => (.str p.1, p.2)
      else if c = cp '\x7b' then
        match depth with
        | 0 => none
        | depth + 1 =>
            match skipSpace cs with
            | [] => none
            | d :: ds =>
                if d = cp '\x7d' then some (.obj [], ds)
                else (scanMembers fuel depth (d :: ds)).map fun p => (.obj p.1, p.2)
      else if c = cp '[' then
        match depth with
        | 0 => none
        | depth + 1 =>
            match skipSpace cs with
            | [] => none
            | d :: ds =>
                if d = cp ']' then some (.arr [], ds)
                else (scanItems fuel depth (d :: ds)).map fun p => (.arr p.1, p.2)
      else
        match constants.find? fun k => k.1.isPrefixOf (c :: cs) with
        | some k => some (k.2, (c :: cs).drop k.1.length)
        | none => (scanNumber (c :: cs)).map fun p => (.num p.1, p.2)

/-- The members of an object from its first key on. -/
def scanMembers : Nat → Nat → Text → Option (List (Text × Json) × Text)
  | 0, _, _ => none
  | _ + 1, _, [] => none
  | fuel + 1, depth, c :: cs =>
      if c ≠ cp '"' then none
      else do
        let (key, s) ← scanString (cs.length + 1) cs
        match skipSpace s with
        | [] => none
        | d :: ds =>
            if d ≠ cp ':' then none
            else
              let (value, s) ← scanOnce fuel depth (skipSpace ds)
              match skipSpace s with
              | [] => none
              | d :: ds =>
                  if d = cp '\x7d' then return ([(key, value)], ds)
                  else if d ≠ cp ',' then none
                  else
                    let (members, s) ← scanMembers fuel depth (skipSpace ds)
                    return ((key, value) :: members, s)

/-- The items of an array from its first one on. -/
def scanItems : Nat → Nat → Text → Option (List Json × Text)
  | 0, _, _ => none
  | fuel + 1, depth, s => do
      let (value, s) ← scanOnce fuel depth s
      match skipSpace s with
      | [] => none
      | d :: ds =>
          if d = cp ']' then return ([value], ds)
          else if d ≠ cp ',' then none
          else
            let (items, s) ← scanItems fuel depth (skipSpace ds)
            return (value :: items, s)

end

/-- `json.loads(s)`, `none` where it raises `ValueError` or `RecursionError`. -/
def loads (recursionLimit : Nat) (s : Text) : Option Json :=
  if s.head? = some 0xfeff then none
  else
    match scanOnce (2 * s.length + 2) recursionLimit (skipSpace s) with
    | some (value, rest) => if skipSpace rest = [] then some value else none
    | none => none

/-- `\uXXXX` with lower-case digits. -/
def escapeUnit (n : Nat) : Text :=
  let digit (d : Nat) : CodePoint := Fin.ofNat 0x110000 (if d < 10 then 0x30 + d else 0x57 + d)
  [cp '\\', cp 'u', digit (n / 4096 % 16), digit (n / 256 % 16), digit (n / 16 % 16),
    digit (n % 16)]

/-- One code point of a string literal, with everything outside printable ASCII
escaped, beyond the basic plane as a surrogate pair. -/
def escapeCodePoint (c : CodePoint) : Text :=
  if c = cp '"' ∨ c = cp '\\' then [cp '\\', c]
  else if c = cp '\n' then [cp '\\', cp 'n']
  else if c = cp '\r' then [cp '\\', cp 'r']
  else if c = cp '\t' then [cp '\\', cp 't']
  else if c.val = 0x0c then [cp '\\', cp 'f']
  else if c.val = 0x08 then [cp '\\', cp 'b']
  else if 0x20 ≤ c.val ∧ c.val ≤ 0x7e then [c]
  else if c.val < 0x10000 then escapeUnit c.val
  else escapeUnit (0xd800 + (c.val - 0x10000) / 0x400) ++
    escapeUnit (0xdc00 + (c.val - 0x10000) % 0x400)

/-- A string literal. -/
def dumpsString (s : Text) : Text :=
  cp '"' :: s.flatMap escapeCodePoint ++ [cp '"']

mutual

/-- `json.dumps(value)`, for objects whose members are sorted by key. -/
def dumps : Json → Text
  | .null => text "null"
  | .bool b => if b then text "true" else text "false"
  | .num literal => literal
  | .str s => dumpsString s
  | .arr items => cp '[' :: dumpsItems items
  | .obj members => cp '\x7b' :: dumpsMembers members

/-- The items of an array and its closing bracket. -/
def dumpsItems : List Json → Text
  | [] => [cp ']']
  | [v] => dumps v ++ [cp ']']
  | v :: vs => dumps v ++ text ", " ++ dumpsItems vs

/-- The members of an object and its closing brace. -/
def dumpsMembers : List (Text × Json) → Text
  | [] => [cp '\x7d']
  | [(k, v)] => dumpsString k ++ text ": " ++ dumps v ++ [cp '\x7d']
  | (k, v) :: ms => dumpsString k ++ text ": " ++ dumps v ++ text ", " ++ dumpsMembers ms

end

end Json

end LocalGraphRag.Python
