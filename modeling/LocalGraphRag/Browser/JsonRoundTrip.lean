import LocalGraphRag.Browser.JsonParse
import LocalGraphRag.Python.Numerals

/-!
# What the browser parses of Python's JSON

`JSON.parse` reads what `json.dumps` wrote, with every string in its code units. Each lemma is
about a text with anything behind it, since that is how the parser meets it; only behind a
number it matters what that is.
-/

namespace LocalGraphRag.Browser

open LocalGraphRag.Python

section Strings

theorem utf16Char_of_lt {n : ℕ} (h : n < 0x10000) :
    utf16Char (Fin.ofNat 0x110000 n) = [codeUnit n] := by
  have hval : (Fin.ofNat 0x110000 n).val = n := Nat.mod_eq_of_lt (by omega)
  rw [utf16Char, if_pos (by omega), hval]

/-- The code unit of a character of ASCII. -/
theorem utf16_cp {c : Char} (h : c.toNat < 0x10000) (s : Text) :
    utf16 (cp c :: s) = unit c :: utf16 s := by
  rw [utf16_cons, cp, utf16Char_of_lt h]
  rfl

/-- Another character has another code unit. -/
theorem ofNat_ne_unit {c : CodePoint} {l : Char} (hc : c.val < 0x10000) (hl : l.toNat < 0x10000)
    (hne : c ≠ cp l) : codeUnit c.val ≠ unit l := by
  intro h
  have hval : c.val % 0x10000 = l.toNat % 0x10000 := congrArg Fin.val h
  rw [Nat.mod_eq_of_lt hc, Nat.mod_eq_of_lt hl] at hval
  exact hne (Fin.ext (hval.trans (Nat.mod_eq_of_lt (by omega)).symm))

theorem hexValue_digit : ∀ d : Fin 16,
    hexValue (codeUnit (if d.val < 10 then 0x30 + d.val else 0x57 + d.val)) =
      some d.val := by decide

/-- An escape `\u` is read as its code unit. -/
theorem scanString_escapeUnit {n : ℕ} (h : n < 0x10000) (rest : JsText) :
    scanString (utf16 (Json.escapeUnit n) ++ rest) =
      (scanString rest).map fun p => (codeUnit n :: p.1, p.2) := by
  have hdigit : ∀ d, d < 16 → ∃ u, utf16Char (Fin.ofNat 0x110000
      (if d < 10 then 0x30 + d else 0x57 + d)) = [u] ∧ hexValue u = some d := by
    intro d hd
    refine ⟨_, utf16Char_of_lt (by split_ifs <;> omega), hexValue_digit ⟨d, hd⟩⟩
  obtain ⟨a, ha, hva⟩ := hdigit (n / 4096 % 16) (Nat.mod_lt _ (by omega))
  obtain ⟨b, hb, hvb⟩ := hdigit (n / 256 % 16) (Nat.mod_lt _ (by omega))
  obtain ⟨c, hc, hvc⟩ := hdigit (n / 16 % 16) (Nat.mod_lt _ (by omega))
  obtain ⟨d, hd, hvd⟩ := hdigit (n % 16) (Nat.mod_lt _ (by omega))
  have hunits : utf16 (Json.escapeUnit n) = [unit '\\', unit 'u', a, b, c, d] := by
    rw [Json.escapeUnit, utf16_cp (by decide), utf16_cp (by decide)]
    simp only [utf16_cons, ha, hb, hc, hd, utf16_nil, List.append_nil, List.singleton_append]
  have hunit : hexUnit a b c d = some (codeUnit n) := by
    have hn : ((n / 4096 % 16 * 16 + n / 256 % 16) * 16 + n / 16 % 16) * 16 + n % 16 = n := by
      omega
    simp only [hexUnit, hva, hvb, hvc, hvd, Option.bind_eq_bind, Option.bind_some, hn]
    rfl
  rw [hunits]
  simp only [List.cons_append, List.nil_append]
  rw [scanString, if_neg (by decide), if_pos rfl]
  simp only [if_pos, hunit, Option.bind_some]

theorem scanString_letter {e u : CodeUnit} (hu : e ≠ unit 'u') (he : letterEscape e = some u)
    (rest : JsText) : scanString (unit '\\' :: e :: rest) =
      (scanString rest).map fun p => (u :: p.1, p.2) := by
  rw [scanString.eq_def]
  simp only [if_neg (show unit '\\' ≠ unit '"' by decide), if_pos, if_neg hu, he, Option.bind_some]

theorem scanString_plain {c : CodeUnit} (hquote : c ≠ unit '"') (hescape : c ≠ unit '\\')
    (hc : 0x20 ≤ c.val) (rest : JsText) :
    scanString (c :: rest) = (scanString rest).map fun p => (c :: p.1, p.2) := by
  rw [scanString.eq_def]
  simp only [if_neg hquote, if_neg hescape, if_neg (not_lt.mpr hc)]

/-- A character in a literal is read as its code units. -/
theorem scanString_escapeCodePoint (c : CodePoint) (rest : JsText) :
    scanString (utf16 (Json.escapeCodePoint c) ++ rest) =
      (scanString rest).map fun p => (utf16Char c ++ p.1, p.2) := by
  have hletter : ∀ (l : Char) (d : CodePoint), l.toNat < 0x10000 → unit l ≠ unit 'u' →
      (letterEscape (unit l)).map ([·]) = some (utf16Char d) →
      scanString (utf16 [cp '\\', cp l] ++ rest) =
        (scanString rest).map fun p => (utf16Char d ++ p.1, p.2) := by
    intro l d hl hu hd
    obtain ⟨u, he, hd⟩ := Option.map_eq_some_iff.mp hd
    rw [utf16_cp (by decide), utf16_cp hl, ← hd]
    exact scanString_letter hu he rest
  rw [Json.escapeCodePoint]
  split_ifs with h1 h2 h3 h4 h5 h6 h7 h8
  · obtain rfl | rfl := h1
    · exact hletter _ _ (by decide) (by decide) (by decide)
    · exact hletter _ _ (by decide) (by decide) (by decide)
  · subst h2
    exact hletter _ _ (by decide) (by decide) (by decide)
  · subst h3
    exact hletter _ _ (by decide) (by decide) (by decide)
  · subst h4
    exact hletter _ _ (by decide) (by decide) (by decide)
  · obtain rfl : c = 0x0c := Fin.ext h5
    exact hletter _ _ (by decide) (by decide) (by decide)
  · obtain rfl : c = 0x08 := Fin.ext h6
    exact hletter _ _ (by decide) (by decide) (by decide)
  · obtain ⟨hquote, hescape⟩ := not_or.mp h1
    have hunit : utf16Char c = [codeUnit c.val] := if_pos (by omega)
    rw [utf16_cons, hunit, utf16_nil, List.append_nil, List.singleton_append]
    apply scanString_plain
    · exact ofNat_ne_unit (by omega) (by decide) hquote
    · exact ofNat_ne_unit (by omega) (by decide) hescape
    · exact h7.1.trans (Nat.mod_eq_of_lt (by omega : c.val < 0x10000)).ge
  · rw [scanString_escapeUnit h8, utf16Char, if_pos h8]
    rfl
  · rw [utf16_append, List.append_assoc, scanString_escapeUnit (by omega),
      scanString_escapeUnit (by omega), utf16Char, if_neg h8, Option.map_map]
    rfl

/-- A string literal is read as its string. -/
theorem scanString_dumpsString (s : Text) (rest : JsText) :
    scanString (utf16 (s.flatMap Json.escapeCodePoint ++ [cp '"']) ++ rest) =
      some (utf16 s, rest) := by
  induction s with
  | nil =>
      rw [List.flatMap_nil, List.nil_append, utf16_cp (by decide), List.cons_append,
        scanString.eq_def]
      exact if_pos rfl
  | cons c s ih =>
      rw [List.flatMap_cons, List.append_assoc, utf16_append, List.append_assoc,
        scanString_escapeCodePoint, ih]
      rfl

end Strings

mutual

/-- The value that the browser has of one of Python's. -/
def ofJson : Json → JsValue
  | .null => .null
  | .bool b => .bool b
  | .num literal => .num (utf16 literal)
  | .str s => .str (utf16 s)
  | .arr items => .arr (ofItems items)
  | .obj members => .obj (ofMembers members)

def ofItems : List Json → List JsValue
  | [] => []
  | v :: vs => ofJson v :: ofItems vs

def ofMembers : List (Text × Json) → List (JsText × JsValue)
  | [] => []
  | (k, v) :: ms => (utf16 k, ofJson v) :: ofMembers ms

end

section Numbers

/-- What may follow a value in a text that `json.dumps` writes. -/
def EndsValue (rest : JsText) : Prop :=
  ∀ c, rest.head? = some c → c = unit ',' ∨ c = unit ']' ∨ c = unit '\x7d'

/-- What may begin one. -/
def StartsValue (s : JsText) : Prop := ∃ c cs, s = c :: cs ∧ 0x21 ≤ c.val ∧ c ≠ unit ']'

/-- The printable characters of ASCII. -/
def Printable (s : Text) : Prop := ∀ c ∈ s, 0x20 ≤ c.val ∧ c.val ≤ 0x7e

/-- A literal is a number that is read up to its end. -/
structure ReadBack (literal : Text) : Prop where
  printable : Printable literal
  starts : StartsValue (utf16 literal)
  scan : ∀ fuel rest, EndsValue rest →
    scanValue (fuel + 1) (utf16 literal ++ rest) = some (.num (utf16 literal), rest)

/-- What follows a value goes on with no number. -/
theorem EndsValue.notNumber {rest : JsText} (h : EndsValue rest) :
    rest.takeWhile isDigit = [] ∧ rest.dropWhile isDigit = rest ∧
      scanFraction rest = ([], rest) ∧ scanExponent rest = ([], rest) := by
  cases rest with
  | nil => exact ⟨rfl, rfl, rfl, rfl⟩
  | cons c cs =>
      have hc : isDigit c = false ∧ c ≠ unit '.' ∧ c ≠ unit 'e' ∧ c ≠ unit 'E' := by
        obtain rfl | rfl | rfl := h c rfl <;> decide
      refine ⟨List.takeWhile_cons_of_neg (by simp [hc.1]),
        List.dropWhile_cons_of_neg (by simp [hc.1]), if_neg fun hdot => ?_, ?_⟩
      · exact hc.2.1 (Option.some.inj hdot.1)
      · simp only [scanExponent]
        exact if_neg fun hexp => hexp.1.elim hc.2.2.1 hc.2.2.2

theorem scanNumber_digits {digits rest : JsText} (hdigits : ∀ u ∈ digits, isDigit u = true)
    (hne : digits ≠ []) (hzero : digits.head? = some (unit '0') → digits = [unit '0'])
    (hrest : EndsValue rest) : scanNumber (digits ++ rest) = some (digits, rest) := by
  obtain ⟨htake, hdrop, hfraction, hexponent⟩ := hrest.notNumber
  obtain ⟨c, cs, rfl⟩ := List.exists_cons_of_ne_nil hne
  have hsign : scanSign (c :: cs ++ rest) = ([], c :: cs ++ rest) := by
    refine if_neg fun hminus => ?_
    have hc := hdigits c List.mem_cons_self
    rw [Option.some.inj hminus] at hc
    exact absurd hc (by decide)
  have hwhole : scanWhole (c :: cs ++ rest) = some (c :: cs, rest) := by
    rw [scanWhole]
    split_ifs with hhead hnone
    · rw [hzero hhead]
      rfl
    · rw [List.takeWhile_append_of_pos hdigits] at hnone
      cases hnone
    · rw [List.takeWhile_append_of_pos hdigits, List.dropWhile_append_of_pos hdigits, htake,
        hdrop, List.append_nil]
  rw [scanNumber, hsign]
  simp only [hwhole, Option.bind_eq_bind, Option.bind_some, hfraction, hexponent]
  rw [List.nil_append, List.append_nil, List.append_nil]
  rfl

theorem utf16_natText (n : ℕ) : (∀ u ∈ utf16 (natText n), isDigit u = true) ∧
    utf16 (natText n) ≠ [] ∧
      ((utf16 (natText n)).head? = some (unit '0') → utf16 (natText n) = [unit '0']) := by
  have hchar : ∀ c ∈ natText n, utf16Char c = [codeUnit c.val] ∧
      (codeUnit c.val).val = c.val := by
    intro c hc
    have hrange := mem_natText hc
    exact ⟨if_pos (by omega), Nat.mod_eq_of_lt (by omega)⟩
  refine ⟨fun u hu => ?_, fun hnil => natText_ne_nil n (utf16_eq_nil_iff.mp hnil), fun hhead => ?_⟩
  · obtain ⟨c, hc, hu⟩ := List.mem_flatMap.mp hu
    obtain ⟨hunits, hval⟩ := hchar c hc
    rw [hunits, List.mem_singleton] at hu
    have hrange := mem_natText hc
    rw [hu, isDigit, hval]
    simpa using hrange
  · obtain ⟨c, s, hs⟩ := List.exists_cons_of_ne_nil (natText_ne_nil n)
    obtain ⟨hunits, hval⟩ := hchar c (hs ▸ List.mem_cons_self)
    have hzero : c = digitPoint 0 := by
      rw [hs, utf16_cons, hunits] at hhead
      have hunit := congrArg Fin.val (Option.some.inj hhead)
      rw [hval] at hunit
      exact Fin.ext hunit
    rw [head_natText (by rw [hs, hzero, List.head?_cons])]
    rfl

theorem readBack_natText (n : ℕ) : ReadBack (natText n) := by
  obtain ⟨hdigits, hne, hzero⟩ := utf16_natText n
  obtain ⟨c, cs, hc⟩ := List.exists_cons_of_ne_nil hne
  have hdigit : isDigit c = true := hdigits c (hc ▸ List.mem_cons_self)
  have hother : ∀ l : Char, isDigit (unit l) = false → c ≠ unit l := by
    intro l hl heq
    rw [heq, hl] at hdigit
    cases hdigit
  constructor
  · intro c hc
    have hrange := mem_natText hc
    omega
  · refine ⟨c, cs, hc, ?_, hother _ (by decide)⟩
    simp only [isDigit, Bool.and_eq_true, decide_eq_true_eq] at hdigit
    omega
  · intro fuel rest hrest
    have hnumber := scanNumber_digits hdigits hne hzero hrest
    rw [hc] at hnumber ⊢
    rw [List.cons_append] at hnumber ⊢
    have hliteral : (literals.find? fun l => l.1.isPrefixOf (c :: (cs ++ rest))) = none := by
      have hword : ∀ (l : Char) (word : JsText), isDigit (unit l) = false →
          (unit l :: word).isPrefixOf (c :: (cs ++ rest)) = false := by
        intro l word hl
        rw [List.isPrefixOf_cons_cons, beq_false_of_ne (hother l hl).symm, Bool.false_and]
      apply List.find?_eq_none.mpr
      intro l hl
      simp only [literals, List.mem_cons, List.not_mem_nil, or_false] at hl
      obtain rfl | rfl | rfl := hl
      · exact Bool.eq_false_iff.mp (hword 'n' (jsText "ull") (by decide))
      · exact Bool.eq_false_iff.mp (hword 't' (jsText "rue") (by decide))
      · exact Bool.eq_false_iff.mp (hword 'f' (jsText "alse") (by decide))
    rw [scanValue, if_neg (hother _ (by decide)), if_neg (hother _ (by decide)),
      if_neg (hother _ (by decide)), hliteral, hnumber]
    rfl

end Numbers

mutual

/-- Every number of the value is read back. -/
def NumbersReadBack : Json → Prop
  | .num literal => ReadBack literal
  | .arr items => ItemsReadBack items
  | .obj members => MembersReadBack members
  | _ => True

def ItemsReadBack : List Json → Prop
  | [] => True
  | v :: vs => NumbersReadBack v ∧ ItemsReadBack vs

def MembersReadBack : List (Text × Json) → Prop
  | [] => True
  | (_, v) :: ms => NumbersReadBack v ∧ MembersReadBack ms

end

section Values

theorem skipSpace_of_startsValue {s : JsText} (h : StartsValue s) (rest : JsText) :
    skipSpace (s ++ rest) = s ++ rest := by
  obtain ⟨c, cs, rfl, hc, -⟩ := h
  apply List.dropWhile_cons_of_neg
  have hne : ∀ l : Char, l.toNat ≤ 0x20 → c ≠ unit l := by
    intro l hl heq
    have hval := congrArg Fin.val heq
    rw [unit, codeUnit, Fin.val_ofNat, Nat.mod_eq_of_lt (by omega)] at hval
    omega
  simp [hne ' ' (by decide), hne '\t' (by decide), hne '\n' (by decide), hne '\r' (by decide)]

theorem startsValue_dumps {v : Json} (h : NumbersReadBack v) :
    StartsValue (utf16 (Json.dumps v)) := by
  have hof : ∀ (l : Char) (s : Text), l.toNat < 0x10000 → 0x21 ≤ (unit l).val → unit l ≠ unit ']' →
      StartsValue (utf16 (cp l :: s)) := by
    intro l s hl hlow hne
    exact ⟨unit l, utf16 s, utf16_cp hl s, hlow, hne⟩
  cases v with
  | null => exact hof 'n' _ (by decide) (by decide) (by decide)
  | bool b =>
      cases b with
      | false => exact hof 'f' _ (by decide) (by decide) (by decide)
      | true => exact hof 't' _ (by decide) (by decide) (by decide)
  | num literal => exact h.starts
  | str s => exact hof '"' _ (by decide) (by decide) (by decide)
  | arr items => exact hof '[' _ (by decide) (by decide) (by decide)
  | obj members => exact hof '\x7b' _ (by decide) (by decide) (by decide)

theorem skipSpace_cons {c : CodeUnit} (hc : 0x21 ≤ c.val) (hne : c ≠ unit ']') (s : JsText) :
    skipSpace (c :: s) = c :: s :=
  skipSpace_of_startsValue ⟨c, [], rfl, hc, hne⟩ s

theorem skipSpace_space (s : JsText) : skipSpace (unit ' ' :: s) = skipSpace s :=
  List.dropWhile_cons_of_pos (by decide)

theorem endsValue_cons {c : CodeUnit} (hc : c = unit ',' ∨ c = unit ']' ∨ c = unit '\x7d')
    (s : JsText) : EndsValue (c :: s) := by
  intro d hd
  rwa [← Option.some.inj hd]

theorem scanValue_string (fuel : ℕ) (s : JsText) :
    scanValue (fuel + 1) (unit '"' :: s) = (scanString s).map fun p => (.str p.1, p.2) := by
  rw [scanValue, if_pos rfl]

theorem scanValue_array {s : JsText} (h : StartsValue s) (fuel : ℕ) :
    scanValue (fuel + 1) (unit '[' :: s) = (scanItems fuel s).map fun p => (.arr p.1, p.2) := by
  have hskip := skipSpace_of_startsValue h []
  rw [List.append_nil] at hskip
  obtain ⟨c, cs, rfl, -, hc⟩ := h
  rw [scanValue, if_neg (by decide), if_neg (by decide), if_pos rfl, hskip, List.head?_cons,
    if_neg fun hhead => hc (Option.some.inj hhead)]

theorem scanValue_object (fuel : ℕ) (s : JsText) :
    scanValue (fuel + 1) (unit '\x7b' :: unit '"' :: s) =
      (scanMembers fuel (unit '"' :: s)).map fun p => (.obj p.1, p.2) := by
  rw [scanValue, if_neg (by decide), if_pos rfl, skipSpace_cons (by decide) (by decide),
    List.head?_cons, if_neg (by decide)]

section Items
variable {fuel : ℕ} {s t : JsText} {value : JsValue}

theorem scanItems_last (h : scanValue fuel s = some (value, unit ']' :: t)) :
    scanItems (fuel + 1) s = some ([value], t) := by
  have hclose : skipSpace (unit ']' :: t) = unit ']' :: t := List.dropWhile_cons_of_neg (by decide)
  rw [scanItems, h]
  simp [hclose]

theorem scanItems_comma (h : scanValue fuel s = some (value, unit ',' :: t)) :
    scanItems (fuel + 1) s =
      (scanItems fuel (skipSpace t)).map fun p => (value :: p.1, p.2) := by
  have hcomma : skipSpace (unit ',' :: t) = unit ',' :: t := List.dropWhile_cons_of_neg (by decide)
  rw [scanItems, h]
  simp only [Option.bind_eq_bind, Option.bind_some, hcomma, List.head?_cons, List.tail_cons]
  rw [if_neg (by decide), if_pos trivial]
  cases scanItems fuel (skipSpace t) <;> rfl

variable {key t' : JsText}

theorem scanMembers_last (hkey : scanString s = some (key, unit ':' :: t))
    (h : scanValue fuel (skipSpace t) = some (value, unit '\x7d' :: t')) :
    scanMembers (fuel + 1) (unit '"' :: s) = some ([(key, value)], t') := by
  have hcolon : skipSpace (unit ':' :: t) = unit ':' :: t := List.dropWhile_cons_of_neg (by decide)
  have hclose : skipSpace (unit '\x7d' :: t') = unit '\x7d' :: t' :=
    List.dropWhile_cons_of_neg (by decide)
  rw [scanMembers, if_neg (by simp), List.tail_cons, hkey]
  simp [hcolon, h, hclose]

theorem scanMembers_comma (hkey : scanString s = some (key, unit ':' :: t))
    (h : scanValue fuel (skipSpace t) = some (value, unit ',' :: t')) :
    scanMembers (fuel + 1) (unit '"' :: s) =
      (scanMembers fuel (skipSpace t')).map fun p => ((key, value) :: p.1, p.2) := by
  have hcolon : skipSpace (unit ':' :: t) = unit ':' :: t := List.dropWhile_cons_of_neg (by decide)
  have hcomma : skipSpace (unit ',' :: t') = unit ',' :: t' :=
    List.dropWhile_cons_of_neg (by decide)
  rw [scanMembers, if_neg (by simp), List.tail_cons, hkey]
  simp only [Option.bind_eq_bind, Option.bind_some, hcolon, List.head?_cons, ne_eq,
    not_true_eq_false, if_false, List.tail_cons, h, hcomma]
  rw [if_neg (by decide), if_pos trivial]
  cases scanMembers fuel (skipSpace t') <;> rfl

end Items

section Texts
variable (v w : Json) (vs : List Json) (k : Text) (m : Text × Json) (ms : List (Text × Json))
variable (rest : JsText)

theorem dumpsString_eq :
    Json.dumpsString k = cp '"' :: (k.flatMap Json.escapeCodePoint ++ [cp '"']) := rfl

theorem dumpsItems_cons :
    Json.dumpsItems (v :: w :: vs) = Json.dumps v ++ text ", " ++ Json.dumpsItems (w :: vs) := by
  rw [Json.dumpsItems]
  exact List.cons_ne_nil _ _

theorem dumpsMembers_cons : Json.dumpsMembers ((k, v) :: m :: ms) =
    Json.dumpsString k ++ text ": " ++ Json.dumps v ++ text ", " ++
      Json.dumpsMembers (m :: ms) := by
  rw [Json.dumpsMembers]
  exact List.cons_ne_nil _ _

/-- What stands between two items, and at the end of the last. -/
theorem utf16_comma (s : Text) :
    utf16 (text ", " ++ s) ++ rest = unit ',' :: unit ' ' :: (utf16 s ++ rest) := by
  rw [utf16_append]
  rfl

theorem utf16_dumpsItems_last :
    utf16 (Json.dumpsItems [v]) ++ rest = utf16 (Json.dumps v) ++ unit ']' :: rest := by
  rw [Json.dumpsItems, utf16_append, List.append_assoc]
  rfl

theorem utf16_dumpsItems_cons : utf16 (Json.dumpsItems (v :: w :: vs)) ++ rest =
    utf16 (Json.dumps v) ++ unit ',' :: unit ' ' ::
      (utf16 (Json.dumpsItems (w :: vs)) ++ rest) := by
  rw [dumpsItems_cons, List.append_assoc, utf16_append, List.append_assoc, utf16_comma]

/-- The key of a member, up to its value. -/
theorem utf16_key (s : Text) : ∃ key, utf16 (Json.dumpsString k ++ text ": " ++ s) ++ rest =
    unit '"' :: key ∧
      scanString key = some (utf16 k, unit ':' :: unit ' ' :: (utf16 s ++ rest)) := by
  refine ⟨utf16 (k.flatMap Json.escapeCodePoint ++ [cp '"']) ++ (utf16 (text ": " ++ s) ++ rest),
    ?_, ?_⟩
  · rw [dumpsString_eq, List.append_assoc, List.cons_append, utf16_cp (by decide), utf16_append,
      List.cons_append, List.append_assoc]
  · rw [scanString_dumpsString, utf16_append]
    rfl

theorem utf16_dumpsMembers_last : ∃ key, utf16 (Json.dumpsMembers [(k, v)]) ++ rest =
    unit '"' :: key ∧ scanString key = some (utf16 k, unit ':' :: unit ' ' ::
      (utf16 (Json.dumps v) ++ unit '\x7d' :: rest)) := by
  obtain ⟨key, htext, hscan⟩ := utf16_key k rest (Json.dumps v ++ [cp '\x7d'])
  refine ⟨key, ?_, ?_⟩
  · rw [← htext, Json.dumpsMembers, List.append_assoc]
  · rw [hscan, utf16_append, List.append_assoc]
    rfl

theorem utf16_dumpsMembers_cons : ∃ key, utf16 (Json.dumpsMembers ((k, v) :: m :: ms)) ++ rest =
    unit '"' :: key ∧ scanString key = some (utf16 k, unit ':' :: unit ' ' ::
      (utf16 (Json.dumps v) ++ unit ',' :: unit ' ' ::
        (utf16 (Json.dumpsMembers (m :: ms)) ++ rest))) := by
  obtain ⟨key, htext, hscan⟩ :=
    utf16_key k rest (Json.dumps v ++ (text ", " ++ Json.dumpsMembers (m :: ms)))
  refine ⟨key, ?_, ?_⟩
  · rw [← htext, dumpsMembers_cons, ← List.append_assoc (Json.dumps v), ← List.append_assoc,
      ← List.append_assoc]
  · rw [hscan, utf16_append, List.append_assoc, utf16_comma]

end Texts

theorem StartsValue.append {s : JsText} (h : StartsValue s) (t : JsText) :
    StartsValue (s ++ t) := by
  obtain ⟨c, cs, rfl, hc, hne⟩ := h
  exact ⟨c, cs ++ t, rfl, hc, hne⟩

theorem startsValue_dumpsItems {v : Json} {vs : List Json} (h : ItemsReadBack (v :: vs)) :
    StartsValue (utf16 (Json.dumpsItems (v :: vs))) := by
  have hv := startsValue_dumps h.1
  cases vs with
  | nil =>
      rw [← List.append_nil (utf16 _), utf16_dumpsItems_last]
      exact hv.append _
  | cons w vs =>
      rw [← List.append_nil (utf16 _), utf16_dumpsItems_cons]
      exact hv.append _

theorem utf16_dumpsMembers_eq (m : Text × Json) (ms : List (Text × Json)) (rest : JsText) :
    ∃ key, utf16 (Json.dumpsMembers (m :: ms)) ++ rest = unit '"' :: key := by
  obtain ⟨k, v⟩ := m
  cases ms with
  | nil =>
      obtain ⟨key, htext, -⟩ := utf16_dumpsMembers_last v k rest
      exact ⟨key, htext⟩
  | cons m ms =>
      obtain ⟨key, htext, -⟩ := utf16_dumpsMembers_cons v k m ms rest
      exact ⟨key, htext⟩

mutual

/-- A value is read back, whatever follows it. -/
theorem scanValue_dumps (v : Json) (h : NumbersReadBack v) {fuel : ℕ}
    (hfuel : (Json.dumps v).length ≤ fuel) {rest : JsText} (hrest : EndsValue rest) :
    scanValue fuel (utf16 (Json.dumps v) ++ rest) = some (ofJson v, rest) := by
  have hpos : 1 ≤ fuel := by
    refine le_trans (List.length_pos_iff.mpr fun hnil => ?_) hfuel
    obtain ⟨c, cs, hstart, -⟩ := startsValue_dumps h
    rw [hnil] at hstart
    cases hstart
  obtain ⟨fuel, rfl⟩ := Nat.exists_eq_add_of_le' hpos
  cases v with
  | null => rfl
  | bool b => cases b <;> rfl
  | num literal => exact h.scan fuel rest hrest
  | str s =>
      rw [Json.dumps, dumpsString_eq, utf16_cp (by decide), List.cons_append, scanValue_string,
        scanString_dumpsString]
      rfl
  | arr items =>
      rw [Json.dumps, List.length_cons] at hfuel
      rw [Json.dumps, utf16_cp (by decide), List.cons_append]
      cases items with
      | nil => rfl
      | cons v vs =>
          rw [scanValue_array ((startsValue_dumpsItems h).append rest),
            scanItems_dumps v vs h (by omega) rest]
          rfl
  | obj members =>
      rw [Json.dumps, List.length_cons] at hfuel
      rw [Json.dumps, utf16_cp (by decide), List.cons_append]
      cases members with
      | nil => rfl
      | cons m ms =>
          cases m with
          | mk k v =>
              obtain ⟨key, hkey⟩ := utf16_dumpsMembers_eq (k, v) ms rest
              rw [hkey, scanValue_object, ← hkey, scanMembers_dumps k v ms h (by omega) rest]
              rfl
termination_by sizeOf v

theorem scanItems_dumps (v : Json) (vs : List Json) (h : ItemsReadBack (v :: vs)) {fuel : ℕ}
    (hfuel : (Json.dumpsItems (v :: vs)).length ≤ fuel) (rest : JsText) :
    scanItems fuel (utf16 (Json.dumpsItems (v :: vs)) ++ rest) =
      some (ofItems (v :: vs), rest) := by
  cases vs with
  | nil =>
      rw [Json.dumpsItems, List.length_append, List.length_singleton] at hfuel
      obtain ⟨fuel, rfl⟩ := Nat.exists_eq_add_of_le' (Nat.le_of_add_left_le hfuel)
      rw [utf16_dumpsItems_last]
      exact scanItems_last (scanValue_dumps v h.1 (by omega) (endsValue_cons (by decide) rest))
  | cons w vs =>
      have hcomma : (text ", ").length = 2 := by decide
      rw [dumpsItems_cons, List.length_append, List.length_append, hcomma] at hfuel
      obtain ⟨fuel, rfl⟩ := Nat.exists_eq_add_of_le' (show 1 ≤ fuel by omega)
      have hlength : (Json.dumps v).length ≤ fuel := by omega
      have hvalue := scanValue_dumps v h.1 hlength
        (endsValue_cons (c := unit ',') (by decide)
          (unit ' ' :: (utf16 (Json.dumpsItems (w :: vs)) ++ rest)))
      rw [utf16_dumpsItems_cons, scanItems_comma hvalue, skipSpace_space,
        skipSpace_of_startsValue (startsValue_dumpsItems h.2),
        scanItems_dumps w vs h.2 (by omega) rest]
      rfl
termination_by sizeOf (v :: vs)

theorem scanMembers_dumps (k : Text) (v : Json) (ms : List (Text × Json))
    (h : MembersReadBack ((k, v) :: ms)) {fuel : ℕ}
    (hfuel : (Json.dumpsMembers ((k, v) :: ms)).length ≤ fuel) (rest : JsText) :
    scanMembers fuel (utf16 (Json.dumpsMembers ((k, v) :: ms)) ++ rest) =
      some (ofMembers ((k, v) :: ms), rest) := by
  have hv := startsValue_dumps h.1
  cases ms with
  | nil =>
      rw [Json.dumpsMembers, List.length_append, List.length_append, List.length_singleton] at hfuel
      obtain ⟨fuel, rfl⟩ := Nat.exists_eq_add_of_le' (Nat.le_of_add_left_le hfuel)
      obtain ⟨key, htext, hscan⟩ := utf16_dumpsMembers_last v k rest
      rw [htext]
      apply scanMembers_last hscan
      rw [skipSpace_space, skipSpace_of_startsValue hv]
      exact scanValue_dumps v h.1 (by omega) (endsValue_cons (by decide) rest)
  | cons m ms =>
      cases m with
      | mk k' v' =>
          have hcomma : (text ", ").length = 2 := by decide
          rw [dumpsMembers_cons, List.length_append, List.length_append, List.length_append,
            hcomma] at hfuel
          obtain ⟨fuel, rfl⟩ := Nat.exists_eq_add_of_le' (show 1 ≤ fuel by omega)
          obtain ⟨key, htext, hscan⟩ := utf16_dumpsMembers_cons v k (k', v') ms rest
          have hlength : (Json.dumps v).length ≤ fuel := by omega
          have hvalue := scanValue_dumps v h.1 hlength
            (endsValue_cons (c := unit ',') (by decide)
              (unit ' ' :: (utf16 (Json.dumpsMembers ((k', v') :: ms)) ++ rest)))
          rw [← skipSpace_of_startsValue hv, ← skipSpace_space] at hvalue
          obtain ⟨next, hnext⟩ := utf16_dumpsMembers_eq (k', v') ms rest
          rw [htext, scanMembers_comma hscan hvalue, skipSpace_space, hnext,
            skipSpace_cons (by decide) (by decide), ← hnext, scanMembers_dumps k' v' ms h.2
              (by omega) rest]
          rfl
termination_by sizeOf ((k, v) :: ms)

end

/-- `JSON.parse` inverts `json.dumps`. -/
theorem jsonParse_dumps {v : Json} (h : NumbersReadBack v) :
    jsonParse (utf16 (Json.dumps v)) = some (ofJson v) := by
  have hskip := skipSpace_of_startsValue (startsValue_dumps h) []
  have hlength := length_le_length_utf16 (Json.dumps v)
  have hfuel : (Json.dumps v).length ≤ 2 * (utf16 (Json.dumps v)).length + 2 := by omega
  have hends : EndsValue [] := by simp [EndsValue]
  have hvalue := scanValue_dumps v h hfuel hends
  rw [List.append_nil] at hskip hvalue
  rw [jsonParse, hskip, hvalue]
  rfl

end Values

section Wire

theorem Printable.append {s t : Text} (hs : Printable s) (ht : Printable t) :
    Printable (s ++ t) := by
  intro c hc
  exact (List.mem_append.mp hc).elim (hs c) (ht c)

instance (s : Text) : Decidable (Printable s) :=
  List.decidableBAll (fun c : CodePoint => 0x20 ≤ c.val ∧ c.val ≤ 0x7e) s

theorem printable_escapeUnit (n : ℕ) : Printable (Json.escapeUnit n) := by
  have hdigit : ∀ d, d < 16 → 0x20 ≤ (Fin.ofNat 0x110000 (if d < 10 then 0x30 + d
      else 0x57 + d)).val ∧ (Fin.ofNat 0x110000 (if d < 10 then 0x30 + d else 0x57 + d)).val ≤
        0x7e := by decide
  intro c hc
  simp only [Json.escapeUnit, List.mem_cons, List.not_mem_nil, or_false] at hc
  obtain rfl | rfl | rfl | rfl | rfl | rfl := hc
  · decide
  · decide
  all_goals exact hdigit _ (Nat.mod_lt _ (by omega))

theorem printable_dumpsString (s : Text) : Printable (Json.dumpsString s) := by
  have hchar : ∀ c, Printable (Json.escapeCodePoint c) := by
    intro c
    rw [Json.escapeCodePoint]
    split_ifs with h1 h2 h3 h4 h5 h6 h7 h8
    · obtain rfl | rfl := h1 <;> decide
    · decide
    · decide
    · decide
    · decide
    · decide
    · simpa [Printable] using h7
    · exact printable_escapeUnit _
    · exact (printable_escapeUnit _).append (printable_escapeUnit _)
  have hbody : Printable (s.flatMap Json.escapeCodePoint) := by
    intro c hc
    obtain ⟨d, -, hc⟩ := List.mem_flatMap.mp hc
    exact hchar d c hc
  have hquote : Printable [cp '"'] := by decide
  exact (hquote.append hbody).append hquote

mutual

theorem printable_dumps (v : Json) (h : NumbersReadBack v) : Printable (Json.dumps v) := by
  cases v with
  | null => decide
  | bool b => cases b <;> decide
  | num literal => exact h.printable
  | str s => exact printable_dumpsString s
  | arr items =>
      have hopen : Printable [cp '['] := by decide
      exact hopen.append (printable_dumpsItems items h)
  | obj members =>
      have hopen : Printable [cp '\x7b'] := by decide
      exact hopen.append (printable_dumpsMembers members h)
termination_by sizeOf v

theorem printable_dumpsItems (items : List Json) (h : ItemsReadBack items) :
    Printable (Json.dumpsItems items) := by
  have hcomma : Printable (text ", ") := by decide
  cases items with
  | nil => decide
  | cons v vs =>
      have hv := printable_dumps v h.1
      cases vs with
      | nil => exact hv.append (by decide)
      | cons w vs =>
          rw [dumpsItems_cons]
          exact (hv.append hcomma).append (printable_dumpsItems (w :: vs) h.2)
termination_by sizeOf items

theorem printable_dumpsMembers (members : List (Text × Json)) (h : MembersReadBack members) :
    Printable (Json.dumpsMembers members) := by
  have hcomma : Printable (text ", ") := by decide
  have hcolon : Printable (text ": ") := by decide
  cases members with
  | nil => decide
  | cons m ms =>
      cases m with
      | mk k v =>
          have hv := ((printable_dumpsString k).append hcolon).append (printable_dumps v h.1)
          cases ms with
          | nil => exact hv.append (by decide)
          | cons m ms =>
              rw [dumpsMembers_cons]
              exact (hv.append hcomma).append (printable_dumpsMembers (m :: ms) h.2)
termination_by sizeOf members

end

end Wire

end LocalGraphRag.Browser
