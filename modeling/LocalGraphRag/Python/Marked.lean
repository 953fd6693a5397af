import LocalGraphRag.Python.Split

/-!
# Texts that carry marks

A list of things that have a code point is cut like the text of these code points. With
the positions of a text as the things, this tells where in the text each part of it is
from.
-/

namespace LocalGraphRag.Python

variable {α β : Type} (code : α → CodePoint) (isBreak : CodePoint → Bool)

section Strip

/-- `str.strip()`. -/
def stripMarked (s : List α) : List α :=
  (s.dropWhile fun c => isSpace (code c)).rdropWhile fun c => isSpace (code c)

theorem map_stripMarked (code : β → CodePoint) (f : α → β) (s : List α) :
    (stripMarked (fun c => code (f c)) s).map f = stripMarked code (s.map f) := by
  simp only [stripMarked, List.rdropWhile, List.dropWhile_map, ← List.map_reverse]
  rfl

theorem stripMarked_sublist (s : List α) : (stripMarked code s).Sublist s :=
  (List.rdropWhile_prefix _ _).sublist.trans (List.dropWhile_sublist _)

theorem mem_stripMarked {c : α} (hc : isSpace (code c) = false) {s : List α} :
    c ∈ stripMarked code s ↔ c ∈ s := by
  have hdrop : ∀ t : List α, c ∈ t.dropWhile (fun c => isSpace (code c)) ↔ c ∈ t :=
    fun _ => mem_dropWhile (p := fun c => isSpace (code c)) hc
  rw [stripMarked, List.rdropWhile, List.mem_reverse, hdrop, List.mem_reverse, hdrop]

end Strip

section Lines

/-- The number of the line an element is on. -/
def lineNumber : List α → Nat → Nat
  | [], _ => 1
  | _ :: _, 0 => 1
  | c :: s, i + 1 => lineNumber s i + if endsLine code isBreak c s then 1 else 0

theorem lineNumber_pos (s : List α) (i : Nat) : 0 < lineNumber code isBreak s i := by
  induction s generalizing i with
  | nil => exact Nat.one_pos
  | cons c s ih =>
      cases i with
      | zero => exact Nat.one_pos
      | succ i => exact Nat.add_pos_left (ih i) _

theorem lineNumber_mono (s : List α) {i j : Nat} (h : i ≤ j) :
    lineNumber code isBreak s i ≤ lineNumber code isBreak s j := by
  induction s generalizing i j with
  | nil => exact le_rfl
  | cons c s ih =>
      cases i with
      | zero => exact lineNumber_pos code isBreak (c :: s) j
      | succ i =>
          cases j with
          | zero => exact absurd h (Nat.not_succ_le_zero i)
          | succ j => exact Nat.add_le_add_right (ih (Nat.le_of_succ_le_succ h)) _

/-- Line ends that are the same on a text number it in the same way. -/
theorem lineNumber_congr {isBreak isBreak' : CodePoint → Bool} {s : List α}
    (h : ∀ c ∈ s, isBreak (code c) = isBreak' (code c)) (i : Nat) :
    lineNumber code isBreak s i = lineNumber code isBreak' s i := by
  induction s generalizing i with
  | nil => rfl
  | cons c s ih =>
      obtain ⟨hc, hs⟩ := List.forall_mem_cons.mp h
      cases i with
      | zero => rfl
      | succ i =>
          have hends : endsLine code isBreak c s = endsLine code isBreak' c s := by
            rw [endsLine, endsLine, hc]
          rw [lineNumber, lineNumber, ih hs, hends]

variable (code : β → CodePoint) (f : α → β)

theorem endsLine_map (c : α) (rest : List α) :
    endsLine code isBreak (f c) (rest.map f) =
      endsLine (fun c => code (f c)) isBreak c rest := by
  cases rest with
  | nil => rfl
  | cons d rest => rfl

theorem linesKeep_map (s : List α) :
    linesKeep code isBreak (s.map f) =
      (linesKeep (fun c => code (f c)) isBreak s).map (List.map f) := by
  induction s with
  | nil => rfl
  | cons c s ih =>
      rw [List.map_cons, linesKeep, linesKeep, endsLine_map, ih]
      split_ifs
      · rfl
      · cases linesKeep (fun c => code (f c)) isBreak s with
        | nil => rfl
        | cons l lines => rfl

theorem lineNumber_map (s : List α) (i : Nat) :
    lineNumber code isBreak (s.map f) i = lineNumber (fun c => code (f c)) isBreak s i := by
  induction s generalizing i with
  | nil => rfl
  | cons c s ih =>
      cases i with
      | zero => rfl
      | succ i => rw [List.map_cons, lineNumber, lineNumber, endsLine_map, ih]

end Lines

/-- An element that does not end its line is put before the next line. -/
theorem linesKeep_cons_of_not {c : α} {s : List α} (h : ¬ endsLine code isBreak c s = true) :
    linesKeep code isBreak (c :: s) =
      (c :: (linesKeep code isBreak s).headD []) :: (linesKeep code isBreak s).tail := by
  rw [linesKeep, if_neg h]
  cases linesKeep code isBreak s with
  | nil => rfl
  | cons l lines => rfl

/-- A range of lines holds the elements whose line numbers are in the range. -/
theorem mem_lines {x : α} {s : List α} {a b : Nat} :
    x ∈ (((linesKeep code isBreak s).take b).drop a).flatten ↔
      ∃ i, s[i]? = some x ∧ a < lineNumber code isBreak s i ∧ lineNumber code isBreak s i ≤ b := by
  induction s generalizing a b with
  | nil => simp [linesKeep]
  | cons c s ih =>
      have hpos := lineNumber_pos code isBreak s
      rw [← Nat.or_exists_add_one]
      simp only [List.getElem?_cons_zero, List.getElem?_cons_succ, lineNumber, Option.some.injEq]
      cases b with
      | zero =>
          have hnone : ∀ i, ¬ lineNumber code isBreak s i +
              (if endsLine code isBreak c s = true then 1 else 0) ≤ 0 := by
            intro i
            have hi := hpos i
            omega
          simp [-nonpos_iff_eq_zero, hnone]
      | succ b =>
          by_cases hends : endsLine code isBreak c s = true
          · simp only [linesKeep, hends, if_true, List.take_succ_cons, Nat.add_le_add_iff_right]
            cases a with
            | zero =>
                have hrest := ih (a := 0) (b := b)
                rw [List.drop_zero] at hrest ⊢
                rw [List.flatten_cons, List.singleton_append, List.mem_cons, hrest, eq_comm]
                simp [hpos]
            | succ a =>
                rw [List.drop_succ_cons, ih]
                simp
          · have hrest := ih (a := a) (b := b + 1)
            rw [linesKeep_cons_of_not code isBreak hends]
            simp only [hends, List.take_succ_cons, Bool.false_eq_true, if_false, Nat.add_zero]
            rw [← hrest]
            cases a with
            | zero =>
                rw [List.drop_zero, List.drop_zero]
                cases linesKeep code isBreak s with
                | nil => simp [eq_comm]
                | cons l lines => simp [eq_comm]
            | succ a =>
                rw [List.drop_succ_cons]
                cases linesKeep code isBreak s with
                | nil => simp
                | cons l lines => simp

end LocalGraphRag.Python
