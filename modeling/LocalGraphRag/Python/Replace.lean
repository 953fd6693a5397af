import LocalGraphRag.Python.Split

/-!
# Replacing a substring

`str.replace` puts the pieces of `str.split` together again with the new text between them.
No piece holds the old text, but a piece and the new text may form it where they meet. They
do not if the two texts are inert, in which no end of one begins the other.

## Implementation notes

Where a text occurs is given by what stands before and after it.
-/

namespace LocalGraphRag.Python

section Pieces
variable {old new sep s : Text}

theorem join_splitFrom_new (old new : Text) (skip : Nat) (s : Text) :
    join new (splitFrom old skip s) = replaceFrom old new skip s := by
  induction s generalizing skip with
  | nil => simp [splitFrom, replaceFrom]
  | cons c s ih =>
      cases skip with
      | succ skip => exact ih skip
      | zero =>
          rw [splitFrom, replaceFrom]
          split_ifs with hstarts
          · rw [join_cons _ _ (splitFrom_ne_nil old _ s), ih, List.nil_append]
          · rw [join_modifyHead _ _ (splitFrom_ne_nil old _ s), ih]

/-- `s.replace(old, new)` is `new.join(s.split(old))`. -/
theorem replace_eq_join (old new s : Text) : replace old new s = join new (split old s) :=
  (join_splitFrom_new old new 0 s).symm

theorem join_prefix_cons (sep part : Text) (parts : List Text) :
    part <+: join sep (part :: parts) := by
  by_cases hparts : parts = []
  · rw [hparts, join_singleton]
  · rw [join_cons _ _ hparts, List.append_assoc]
    exact List.prefix_append _ _

/-- No piece of a split holds the separator. -/
theorem not_infix_of_mem_splitFrom (hsep : sep ≠ []) (skip : Nat) :
    ∀ part ∈ splitFrom sep skip s, ¬sep <:+: part := by
  induction s generalizing skip with
  | nil => simpa [splitFrom] using hsep
  | cons c s ih =>
      cases skip with
      | succ skip => exact ih skip
      | zero =>
          rw [splitFrom]
          split_ifs with hstarts
          · exact List.forall_mem_cons.mpr ⟨by simpa using hsep, ih _⟩
          · obtain ⟨first, rest, hsplit⟩ :=
              List.exists_cons_of_ne_nil (splitFrom_ne_nil sep 0 s)
            have hfirst : first <+: s := by
              have hprefix := join_prefix_cons sep first rest
              rwa [← hsplit, join_splitFrom hsep, List.drop_zero] at hprefix
            have hpieces := ih 0
            rw [hsplit, List.forall_mem_cons] at hpieces
            rw [hsplit, List.modifyHead_cons, List.forall_mem_cons]
            refine ⟨?_, hpieces.2⟩
            intro hinfix
            obtain hhere | hlater := List.infix_cons_iff.mp hinfix
            · apply hstarts
              rw [List.isPrefixOf_iff_prefix]
              exact hhere.trans ((List.prefix_cons_inj c).mpr hfirst)
            · exact hpieces.1 hlater

theorem not_infix_of_mem_split (hsep : sep ≠ []) : ∀ part ∈ split sep s, ¬sep <:+: part :=
  not_infix_of_mem_splitFrom hsep 0

end Pieces

section Inert
variable {old new s : Text} {parts : List Text}

/-- Neither text holds the other, and no end of one is a beginning of the other. -/
structure Inert (old new : Text) : Prop where
  new_free : ¬old <:+: new
  old_free : ¬new <:+: old
  begins : ∀ part ∈ new.tails, part ≠ [] → ¬part <+: old
  ends : ∀ part ∈ new.inits, part ≠ [] → ¬part <:+ old

theorem Inert.old_ne_nil (h : Inert old new) : old ≠ [] := by
  intro hnil
  exact h.new_free (hnil ▸ List.nil_infix)

/-- A piece and the new text after it do not form the old one. -/
theorem Inert.not_infix_append_new (h : Inert old new) (hs : ¬old <:+: s) :
    ¬old <:+: s ++ new := by
  intro hinfix
  obtain hleft | hright | ⟨left, right, -, hne, hold, -, hright⟩ :=
    List.infix_append_iff_ne_nil.mp hinfix
  · exact hs hleft
  · exact h.new_free hright
  · exact h.ends right ((List.mem_inits _ _).mpr hright) hne ⟨left, hold.symm⟩

/-- Nor does what ends in the new text with what comes after it. -/
theorem Inert.not_infix_append (h : Inert old new) {rest : Text} (hs : ¬old <:+: s ++ new)
    (hrest : ¬old <:+: rest) : ¬old <:+: s ++ new ++ rest := by
  intro hinfix
  obtain hleft | hright | ⟨left, right, hne, -, hold, hleft, -⟩ :=
    List.infix_append_iff_ne_nil.mp hinfix
  · exact hs hleft
  · exact hrest hright
  · have hbegins : left <+: old := ⟨right, hold.symm⟩
    obtain hshort | hlong := List.suffix_or_suffix_of_suffix hleft (List.suffix_append s new)
    · exact h.begins left ((List.mem_tails _ _).mpr hshort) hne hbegins
    · exact h.old_free (hlong.isInfix.trans hbegins.isInfix)

theorem Inert.not_infix_join (h : Inert old new) (hparts : ∀ part ∈ parts, ¬old <:+: part) :
    ¬old <:+: join new parts := by
  induction parts with
  | nil => simpa using h.old_ne_nil
  | cons part parts ih =>
      obtain ⟨hpart, hrest⟩ := List.forall_mem_cons.mp hparts
      by_cases hnil : parts = []
      · rwa [hnil, join_singleton]
      · rw [join_cons _ _ hnil]
        exact h.not_infix_append (h.not_infix_append_new hpart) (ih hrest)

/-- Replacing leaves no occurrence, and makes none. -/
theorem Inert.not_infix_replace (h : Inert old new) (s : Text) :
    ¬old <:+: replace old new s := by
  rw [replace_eq_join]
  exact h.not_infix_join (not_infix_of_mem_split h.old_ne_nil)

end Inert

section Occurrences
variable {α : Type} {c : α} {s before after left right : List α}

/-- An occurrence lies on one side of a character that the text does not have. -/
theorem occurrence_of_notMem (hc : c ∉ s) (h : before ++ s ++ after = left ++ c :: right) :
    (∃ rest, before ++ s ++ rest = left ∧ after = rest ++ c :: right) ∨
      ∃ rest, before = left ++ c :: rest ∧ rest ++ s ++ after = right := by
  obtain ⟨rest, hleft, hafter⟩ | ⟨rest, hleft, hright⟩ := List.append_eq_append_iff.mp h
  · exact Or.inl ⟨rest, hleft.symm, hafter⟩
  · cases rest with
    | nil => exact Or.inl ⟨[], by simpa using hleft, hright.symm⟩
    | cons d rest =>
        obtain ⟨rfl, rfl⟩ := List.cons_eq_cons.mp hright
        obtain ⟨mid, -, hs⟩ | ⟨mid, hbefore, hs⟩ := List.append_eq_append_iff.mp hleft
        · exact absurd (hs ▸ List.mem_append_right mid List.mem_cons_self) hc
        · cases mid with
          | nil => exact absurd (hs ▸ List.mem_cons_self : c ∈ [] ++ s) hc
          | cons d mid =>
              obtain ⟨rfl, rfl⟩ := List.cons_eq_cons.mp hs
              exact Or.inr ⟨mid, hbefore, rfl⟩

/-- A text without the occurrence, up to a character that the text does not have, holds no
part of it. -/
theorem occurrence_after (hc : c ∉ s) (hleft : ¬s <:+: left) :
    before ++ s ++ after = left ++ c :: right ↔
      ∃ rest, before = left ++ c :: rest ∧ rest ++ s ++ after = right := by
  constructor
  · intro h
    obtain ⟨rest, hrest, -⟩ | hfound := occurrence_of_notMem hc h
    · exact absurd ⟨before, rest, hrest⟩ hleft
    · exact hfound
  · intro ⟨rest, hbefore, hright⟩
    rw [hbefore, ← hright]
    simp only [List.append_assoc, List.cons_append]

/-- The text itself is its only occurrence, if what follows it begins with a character that
it does not have and holds no other. -/
theorem occurrence_at_start (hc : c ∉ s) (hright : ¬s <:+: right) :
    before ++ s ++ after = s ++ c :: right ↔ before = [] ∧ after = c :: right := by
  constructor
  · intro h
    obtain ⟨rest, hrest, hafter⟩ | ⟨rest, -, hrest⟩ := occurrence_of_notMem hc h
    · have hlength := congrArg List.length hrest
      simp only [List.length_append] at hlength
      have hbefore : before = [] := List.length_eq_zero_iff.mp (by omega)
      have hnone : rest = [] := List.length_eq_zero_iff.mp (by omega)
      exact ⟨hbefore, by rw [hafter, hnone, List.nil_append]⟩
    · exact absurd ⟨rest, after, hrest⟩ hright
  · intro ⟨hbefore, hafter⟩
    rw [hbefore, hafter, List.nil_append]

end Occurrences

end LocalGraphRag.Python
