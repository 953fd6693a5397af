import LocalGraphRag.Python.Text

/-!
# Strings of the browser

A JavaScript string is a sequence of UTF-16 code units. `TextDecoder` makes one of bytes that
come in pieces, and keeps what it has of a character between two of them.

## Implementation notes

The decoder follows the UTF-8 decoder of the Encoding Standard with `stream: true`, which is
never flushed here: an error is one U+FFFD, a byte that cannot continue a character begins
another, and a byte order mark at the start is left out. `needed` counts the bytes that a
character still lacks.
-/

namespace LocalGraphRag.Browser

open LocalGraphRag.Python

abbrev CodeUnit := Fin 0x10000

abbrev JsText := List CodeUnit

section Utf16

/-- The low sixteen bits of a number. -/
def codeUnit (n : ℕ) : CodeUnit := Fin.ofNat 0x10000 n

/-- The code units of a code point. -/
def utf16Char (c : CodePoint) : JsText :=
  if c.val < 0x10000 then [codeUnit c.val]
  else [codeUnit (0xd800 + (c.val - 0x10000) / 0x400),
    codeUnit (0xdc00 + (c.val - 0x10000) % 0x400)]

def utf16 (s : Text) : JsText := s.flatMap utf16Char

/-- The code unit of a character of the basic plane. -/
def unit (c : Char) : CodeUnit := codeUnit c.toNat

/-- The string of a literal. -/
def jsText (s : String) : JsText := utf16 (text s)

@[simp] theorem utf16_nil : utf16 [] = [] := rfl

theorem utf16_cons (c : CodePoint) (s : Text) : utf16 (c :: s) = utf16Char c ++ utf16 s := rfl

@[simp] theorem utf16_append (s t : Text) : utf16 (s ++ t) = utf16 s ++ utf16 t :=
  List.flatMap_append ..

theorem utf16_flatten (parts : List Text) : utf16 parts.flatten = (parts.map utf16).flatten := by
  induction parts with
  | nil => rfl
  | cons part parts ih =>
      rw [List.flatten_cons, utf16_append, ih, List.map_cons, List.flatten_cons]

theorem utf16_eq_nil_iff {s : Text} : utf16 s = [] ↔ s = [] := by
  cases s with
  | nil => simp
  | cons c s =>
      rw [utf16_cons, utf16Char]
      split_ifs <;> simp

theorem length_le_length_utf16 (s : Text) : s.length ≤ (utf16 s).length := by
  induction s with
  | nil => rfl
  | cons c s ih =>
      have hc : 1 ≤ (utf16Char c).length := by
        rw [utf16Char]
        split_ifs <;> simp
      rw [utf16_cons, List.length_append, List.length_cons]
      omega

end Utf16

/-- `String.prototype.trim` removes white space and line terminators. -/
def isTrimmed (c : CodeUnit) : Bool :=
  (0x09 ≤ c.val && c.val ≤ 0x0d) || c.val == 0x20 || c.val == 0xa0 || c.val == 0x1680 ||
    (0x2000 ≤ c.val && c.val ≤ 0x200a) || c.val == 0x2028 || c.val == 0x2029 ||
    c.val == 0x202f || c.val == 0x205f || c.val == 0x3000 || c.val == 0xfeff

def trim (s : JsText) : JsText := (s.dropWhile isTrimmed).rdropWhile isTrimmed

theorem trim_eq_self {first last : CodeUnit} {s : JsText} (hfirst : isTrimmed first = false)
    (hlast : isTrimmed last = false) : trim (first :: s ++ [last]) = first :: s ++ [last] := by
  rw [trim, List.cons_append, List.dropWhile_cons_of_neg (by simp [hfirst]), ← List.cons_append,
    List.rdropWhile_concat_neg _ _ _ (by simp [hlast])]

section Decoder

/-- What is kept of a character, with the bounds of its next byte. -/
structure TextDecoder where
  codePoint : ℕ
  needed : ℕ
  lower : ℕ
  upper : ℕ
  bomSeen : Bool
  deriving DecidableEq

namespace TextDecoder

/-- `new TextDecoder()`. -/
def new : TextDecoder := ⟨0, 0, 0x80, 0xbf, false⟩

/-- No character is kept. -/
def reset (d : TextDecoder) : TextDecoder :=
  { d with codePoint := 0, needed := 0, lower := 0x80, upper := 0xbf }

/-- A code point of the result, where it is not the byte order mark of the start. -/
def emit (d : TextDecoder) (c : ℕ) : JsText × TextDecoder :=
  if d.bomSeen = false ∧ c = 0xfeff then ([], { d with bomSeen := true })
  else (utf16Char (Fin.ofNat 0x110000 c), { d with bomSeen := true })

/-- The first byte of a character. -/
def lead (d : TextDecoder) (byte : Fin 256) : JsText × TextDecoder :=
  let b := byte.val
  if b ≤ 0x7f then d.emit b
  else if 0xc2 ≤ b ∧ b ≤ 0xdf then
    ([], { d with codePoint := b % 0x20, needed := 1, lower := 0x80, upper := 0xbf })
  else if 0xe0 ≤ b ∧ b ≤ 0xef then
    ([], { d with codePoint := b % 0x10, needed := 2, lower := if b = 0xe0 then 0xa0 else 0x80,
                  upper := if b = 0xed then 0x9f else 0xbf })
  else if 0xf0 ≤ b ∧ b ≤ 0xf4 then
    ([], { d with codePoint := b % 0x08, needed := 3, lower := if b = 0xf0 then 0x90 else 0x80,
                  upper := if b = 0xf4 then 0x8f else 0xbf })
  else d.emit 0xfffd

def decodeByte (d : TextDecoder) (byte : Fin 256) : JsText × TextDecoder :=
  if d.needed = 0 then d.lead byte
  else if byte.val < d.lower ∨ d.upper < byte.val then
    let error := d.reset.emit 0xfffd
    let next := error.2.lead byte
    (error.1 ++ next.1, next.2)
  else
    let codePoint := d.codePoint * 0x40 + byte.val % 0x40
    if d.needed = 1 then d.reset.emit codePoint
    else ([], { d with codePoint, needed := d.needed - 1, lower := 0x80, upper := 0xbf })

/-- `decoder.decode(value, { stream: true })`. -/
def decode (d : TextDecoder) : Bytes → JsText × TextDecoder
  | [] => ([], d)
  | byte :: bytes =>
      let first := d.decodeByte byte
      let rest := first.2.decode bytes
      (first.1 ++ rest.1, rest.2)

example : (new.decode [0xef, 0xbb, 0xbf, 0x41, 0xe2, 0x82]).1 = [0x41] := by decide +kernel

end TextDecoder

/-- The code unit of a byte of ASCII. -/
def widen (byte : Fin 256) : CodeUnit := Fin.castLE (by decide) byte

theorem utf16Char_byte (byte : Fin 256) :
    utf16Char (Fin.ofNat 0x110000 byte.val) = [widen byte] := by
  have hval : (Fin.ofNat 0x110000 byte.val).val = byte.val := Nat.mod_eq_of_lt (by omega)
  rw [utf16Char, if_pos (by omega), hval]
  exact congrArg ([·]) (Fin.ext (Nat.mod_eq_of_lt (by omega)))

/-- A text of ASCII is the same in bytes and in code units. -/
theorem widen_utf8 {s : Text} (h : ∀ c ∈ s, c.val < 0x80) : (utf8 s).map widen = utf16 s := by
  induction s with
  | nil => rfl
  | cons c s ih =>
      obtain ⟨hc, hs⟩ := List.forall_mem_cons.mp h
      have hbyte : (Fin.ofNat 256 c.val).val = c.val := Nat.mod_eq_of_lt (by omega)
      have hchar : (utf8Char c).map widen = utf16Char c := by
        rw [utf8Char, if_pos hc, List.map_singleton, ← utf16Char_byte, hbyte]
        exact congrArg utf16Char (Fin.ext (Nat.mod_eq_of_lt c.isLt))
      rw [utf16_cons, ← hchar, ← ih hs, ← List.map_append]
      rfl

theorem ascii_utf8 {s : Text} (h : ∀ c ∈ s, c.val < 0x80) : ∀ byte ∈ utf8 s, byte.val < 0x80 := by
  intro byte hbyte
  obtain ⟨c, hc, hbyte⟩ := List.mem_flatMap.mp hbyte
  rw [utf8Char, if_pos (h c hc), List.mem_singleton] at hbyte
  rw [hbyte]
  exact (Nat.mod_le _ _).trans_lt (h c hc)

/-- ASCII needs nothing of what came before, and leaves nothing for what comes. -/
theorem decode_ascii {d : TextDecoder} (hd : d.needed = 0) {bytes : Bytes}
    (h : ∀ byte ∈ bytes, byte.val < 0x80) :
    (d.decode bytes).1 = bytes.map widen ∧ (d.decode bytes).2.needed = 0 := by
  induction bytes generalizing d with
  | nil => exact ⟨rfl, hd⟩
  | cons byte bytes ih =>
      obtain ⟨hbyte, hbytes⟩ := List.forall_mem_cons.mp h
      have hemit : d.decodeByte byte = ([widen byte], { d with bomSeen := true }) := by
        rw [TextDecoder.decodeByte, if_pos hd, TextDecoder.lead, if_pos (by omega),
          TextDecoder.emit, if_neg (by omega), utf16Char_byte]
      rw [TextDecoder.decode, hemit]
      obtain ⟨hrest, hneeded⟩ := ih (d := { d with bomSeen := true }) hd hbytes
      exact ⟨congrArg ([widen byte] ++ ·) hrest, hneeded⟩

end Decoder

end LocalGraphRag.Browser
