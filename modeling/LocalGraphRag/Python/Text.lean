import Mathlib.Data.List.DropRight
import Mathlib.Data.List.Infix
import Mathlib.Data.String.Basic
import Mathlib.Order.Fin.Basic

/-!
# Python strings

A Python string is a sequence of code points, lone surrogates included: it is
not always encodable as UTF-8, and a library that needs the encoding raises
when it is not. The order on texts is by code point, which is the order of
their UTF-8 encodings.
-/

namespace LocalGraphRag.Python

/-- A code point, surrogates included. -/
abbrev CodePoint := Fin 0x110000

instance neZero_codePoints : @NeZero ℕ Zero.ofOfNat0 0x110000 := ⟨by decide⟩

/-- A Python `str`. -/
abbrev Text := List CodePoint

instance lawfulBEq_text : LawfulBEq Text := inferInstance

/-- A Python `bytes`. -/
abbrev Bytes := List (Fin 256)

instance neZero_bytes : @NeZero ℕ Zero.ofOfNat0 256 := ⟨by decide⟩

/-- The text of a literal. -/
def text (s : String) : Text := s.toList.map fun c => Fin.ofNat 0x110000 c.toNat

/-- A literal character by character, which is how a closed fact about it is decided fast:
the characters are then not decoded from its bytes. -/
theorem text_ofList (l : List Char) :
    text (no_index (String.ofList l)) = l.map fun c => Fin.ofNat 0x110000 c.toNat := by
  rw [text, String.toList_ofList]

/-- `str.isspace` on one code point. -/
def isSpace (c : CodePoint) : Bool :=
  (0x09 ≤ c.val && c.val ≤ 0x0d) || (0x1c ≤ c.val && c.val ≤ 0x20) || c.val == 0x85 ||
    c.val == 0xa0 || c.val == 0x1680 || (0x2000 ≤ c.val && c.val ≤ 0x200a) ||
    c.val == 0x2028 || c.val == 0x2029 || c.val == 0x202f || c.val == 0x205f ||
    c.val == 0x3000

/-- Remove the matching code points at both ends. -/
def stripWhile (p : CodePoint → Bool) (s : Text) : Text :=
  (s.dropWhile p).rdropWhile p

/-- `str.strip()`. -/
def strip (s : Text) : Text := stripWhile isSpace s

theorem stripWhile_subset (p : CodePoint → Bool) (s : Text) : stripWhile p s ⊆ s := by
  intro c hc
  have hsuffix := (List.rdropWhile_prefix p (l := s.dropWhile p)).subset hc
  exact (List.dropWhile_suffix p (l := s)).subset hsuffix

theorem stripWhile_stripWhile (p : CodePoint → Bool) (s : Text) :
    stripWhile p (stripWhile p s) = stripWhile p s := by
  have hhead : (stripWhile p s).dropWhile p = stripWhile p s := by
    rw [List.dropWhile_eq_self_iff]
    intro hl
    have hpre : stripWhile p s <+: s.dropWhile p := List.rdropWhile_prefix p _
    have hl' : 0 < (s.dropWhile p).length := hl.trans_le hpre.length_le
    have hfirst := List.dropWhile_eq_self_iff.mp (List.dropWhile_idempotent (p := p) s) hl'
    rwa [hpre.getElem hl]
  unfold stripWhile at hhead ⊢
  rw [hhead, List.rdropWhile_idempotent]

@[simp] theorem strip_strip (s : Text) : strip (strip s) = strip s :=
  stripWhile_stripWhile isSpace s

/-- A surrogate code point, which UTF-8 cannot encode. -/
def isSurrogate (c : CodePoint) : Bool := 0xd800 ≤ c.val && c.val ≤ 0xdfff

/-- `str.encode()` does not raise. -/
def Encodable (s : Text) : Prop := ∀ c ∈ s, isSurrogate c = false

instance (s : Text) : Decidable (Encodable s) :=
  List.decidableBAll (fun c => isSurrogate c = false) s

/-- `bytes.decode("latin-1")`: every byte is a code point of its own. -/
def latin1 (b : Bytes) : Text := b.map fun x => Fin.castLE (by decide) x

theorem latin1_injective : Function.Injective latin1 := fun _ _ h =>
  List.map_injective_iff.mpr (Fin.castLE_injective _) h

theorem latin1_encodable (b : Bytes) : Encodable (latin1 b) := by
  intro c hc
  obtain ⟨x, -, rfl⟩ := List.mem_map.mp hc
  simp only [isSurrogate, Fin.val_castLE, Bool.and_eq_false_iff, decide_eq_false_iff_not]
  omega

/-- The bytes of one code point. -/
def utf8Char (c : CodePoint) : Bytes :=
  let n := c.val
  if n < 0x80 then [Fin.ofNat 256 n]
  else if n < 0x800 then [Fin.ofNat 256 (0xc0 + n / 64), Fin.ofNat 256 (0x80 + n % 64)]
  else if n < 0x10000 then
    [Fin.ofNat 256 (0xe0 + n / 4096), Fin.ofNat 256 (0x80 + n / 64 % 64),
      Fin.ofNat 256 (0x80 + n % 64)]
  else
    [Fin.ofNat 256 (0xf0 + n / 262144), Fin.ofNat 256 (0x80 + n / 4096 % 64),
      Fin.ofNat 256 (0x80 + n / 64 % 64), Fin.ofNat 256 (0x80 + n % 64)]

/-- `str.encode()` of an encodable text. -/
def utf8 (s : Text) : Bytes := s.flatMap utf8Char

/-- The first byte gives the length, so no code point's bytes begin another's. -/
theorem utf8Char_append {c d : CodePoint} {r r' : Bytes}
    (h : utf8Char c ++ r = utf8Char d ++ r') : c = d ∧ r = r' := by
  have hcd : c = d := by
    obtain ⟨n, hn⟩ := c
    obtain ⟨m, hm⟩ := d
    simp only [utf8Char] at h
    split_ifs at h <;>
      simp only [List.cons_append, List.nil_append, List.cons.injEq, Fin.ext_iff,
        Fin.val_ofNat] at h ⊢ <;>
      omega
  subst hcd
  exact ⟨rfl, List.append_cancel_left h⟩

theorem utf8Char_ne_nil (c : CodePoint) : utf8Char c ≠ [] := by
  simp only [utf8Char]
  split_ifs <;> exact List.cons_ne_nil _ _

theorem utf8_injective : Function.Injective utf8 := by
  intro s
  induction s with
  | nil =>
      intro t h
      cases t with
      | nil => rfl
      | cons d t => exact absurd (List.append_eq_nil_iff.mp h.symm).1 (utf8Char_ne_nil d)
  | cons c s ih =>
      intro t h
      cases t with
      | nil => exact absurd (List.append_eq_nil_iff.mp h).1 (utf8Char_ne_nil c)
      | cons d t =>
          obtain ⟨rfl, hrest⟩ := utf8Char_append h
          rw [ih hrest]

/-- `str.replace(old, new)` for a nonempty `old`; `skip` code points of a match
are still to be dropped. -/
def replaceFrom (old new : Text) : Nat → Text → Text
  | _, [] => []
  | skip + 1, _ :: cs => replaceFrom old new skip cs
  | 0, c :: cs =>
      if old.isPrefixOf (c :: cs) then new ++ replaceFrom old new (old.length - 1) cs
      else c :: replaceFrom old new 0 cs

def replace (old new s : Text) : Text := replaceFrom old new 0 s

/-- `sep.join(parts)`. -/
def join (sep : Text) (parts : List Text) : Text := sep.intercalate parts

/-- `str.split(sep)` for a single separator code point. -/
def splitOn (sep : CodePoint) : Text → List Text
  | [] => [[]]
  | c :: cs =>
      if c = sep then [] :: splitOn sep cs
      else match splitOn sep cs with
        | [] => [[c]]
        | part :: parts => (c :: part) :: parts

section Paths

/-- The parts of a path string: its components, without empty and `.` ones,
after the root if it is absolute. -/
def pathParts (p : Text) : List Text :=
  (if p.head? = some 0x2f then [[0x2f]] else []) ++
    (splitOn 0x2f p).filter fun part => part ≠ [] ∧ part ≠ [0x2e]

/-- `Path(p).is_relative_to(root)`. -/
def isRelativeTo (p root : Text) : Bool := (pathParts root).isPrefixOf (pathParts p)

/-- The path falls under one of the roots. -/
def isUnderAnyRoot (p : Text) (roots : List Text) : Bool := roots.any (isRelativeTo p)

end Paths

end LocalGraphRag.Python
