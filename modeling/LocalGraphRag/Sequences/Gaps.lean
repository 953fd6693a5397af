import Mathlib.Data.List.Sort

/-!
# Items and the gaps between them

The elements of a sequence lie on lines. Items that own some of the elements are taken one
after the other, and between two of them the elements on the lines between theirs. This
gives every element once and in order exactly when the lines keep to the order of the
elements.
-/

namespace LocalGraphRag.Sequences

variable {ι P : Type} (line : P → Nat) (first last : ι → Nat)
  (own : ι → List P) (all : List P)

/-- The items from the line `prev` on, each after the gap before it. -/
def interleave : Nat → List ι → List P
  | prev, [] => all.filter fun i => prev < line i
  | prev, n :: items =>
      all.filter (fun i => prev < line i ∧ line i < first n) ++ own n ++
        interleave (last n) items

/-- The lines of the items come one after the other, from the line `prev` on. -/
def LinesOrdered : Nat → List ι → Prop
  | _, [] => True
  | prev, n :: items => prev ≤ first n ∧ first n ≤ last n ∧ LinesOrdered (last n) items

/-- The element is on none of the lines of the item. -/
def OffLines (n : ι) (i : P) : Prop := line i < first n ∨ last n < line i

variable {line first last own all} {prev : Nat} {items : List ι} {n : ι} {i : P}

theorem LinesOrdered.le_first (h : LinesOrdered first last prev items) (hn : n ∈ items) :
    prev ≤ first n ∧ first n ≤ last n := by
  induction items generalizing prev with
  | nil => simp at hn
  | cons m items ih =>
      obtain ⟨hprev, hm, hrest⟩ := h
      obtain rfl | hn := List.mem_cons.mp hn
      · exact ⟨hprev, hm⟩
      · have hlater := ih hrest hn
        omega

theorem linesOrdered_of_pairwise (hfirst : ∀ n ∈ items, prev ≤ first n ∧ first n ≤ last n)
    (h : items.Pairwise fun n m => last n ≤ first m) : LinesOrdered first last prev items := by
  induction items generalizing prev with
  | nil => trivial
  | cons m items ih =>
      obtain ⟨hm, hrest⟩ := List.forall_mem_cons.mp hfirst
      obtain ⟨hlater, h⟩ := List.pairwise_cons.mp h
      exact ⟨hm.1, hm.2, ih (fun n hn => ⟨hlater n hn, (hrest n hn).2⟩) h⟩

/-- An element comes with its item, or in a gap. -/
theorem mem_interleave (h : LinesOrdered first last prev items) :
    i ∈ interleave line first last own all prev items ↔
      (∃ n ∈ items, i ∈ own n) ∨
        (i ∈ all ∧ prev < line i ∧ ∀ n ∈ items, OffLines line first last n i) := by
  induction items generalizing prev with
  | nil => simp [interleave]
  | cons m items ih =>
      obtain ⟨hprev, hm, hrest⟩ := h
      simp only [interleave, List.mem_append, List.mem_filter, decide_eq_true_eq, ih hrest,
        List.exists_mem_cons_iff, List.forall_mem_cons]
      constructor
      · rintro ((⟨hall, hgap⟩ | hown) | hown | ⟨hall, hlast, hoff⟩)
        · refine Or.inr ⟨hall, hgap.1, Or.inl hgap.2, fun n hn => Or.inl ?_⟩
          have hlater := hrest.le_first hn
          omega
        · exact Or.inl (Or.inl hown)
        · exact Or.inl (Or.inr hown)
        · exact Or.inr ⟨hall, by omega, Or.inr hlast, hoff⟩
      · rintro ((hown | hown) | ⟨hall, hline, hoff, hrestoff⟩)
        · exact Or.inl (Or.inr hown)
        · exact Or.inr (Or.inl hown)
        · obtain hbefore | hafter := hoff
          · exact Or.inl (Or.inl ⟨hall, hline, hbefore⟩)
          · exact Or.inr (Or.inr ⟨hall, hafter, hrestoff⟩)

variable [LinearOrder P]

/-- The element is before the item, or after it, both by its line and in the sequence. -/
def Beside (line : P → Nat) (first last : ι → Nat) (own : ι → List P) (n : ι) (i : P) : Prop :=
  (line i < first n ∧ ∀ j ∈ own n, i < j) ∨ (last n < line i ∧ ∀ j ∈ own n, j < i)

/-- The elements that the items own are on lines of items, and the others beside them. -/
structure LinesFit (line : P → Nat) (first last : ι → Nat) (own : ι → List P) (all : List P)
    (items : List ι) : Prop where
  inside : ∀ i ∈ all, (∃ n ∈ items, i ∈ own n) → ∃ n ∈ items, first n ≤ line i ∧ line i ≤ last n
  outside : ∀ i ∈ all, (∀ n ∈ items, i ∉ own n) → ∀ n ∈ items, Beside line first last own n i

/-- In a sequence in order, an element of a gap is beside the items. -/
theorem beside_of_pairwise (h : LinesOrdered first last prev items)
    (hsorted : (interleave line first last own all prev items).Pairwise (· < ·))
    (hall : i ∈ all) (hline : prev < line i) (hoff : ∀ n ∈ items, OffLines line first last n i) :
    ∀ n ∈ items, Beside line first last own n i := by
  induction items generalizing prev with
  | nil => simp
  | cons m items ih =>
      obtain ⟨hprev, hm, hrest⟩ := h
      obtain ⟨hmoff, hoff⟩ := List.forall_mem_cons.mp hoff
      rw [interleave, List.append_assoc, List.pairwise_append, List.pairwise_append] at hsorted
      obtain ⟨-, ⟨-, hsortedrest, hown⟩, hgap⟩ := hsorted
      rw [List.forall_mem_cons]
      obtain hbefore | hafter := hmoff
      · have hi : i ∈ all.filter fun i => prev < line i ∧ line i < first m := by
          simpa using ⟨hall, hline, hbefore⟩
        constructor
        · exact Or.inl ⟨hbefore, fun j hj => hgap i hi j (List.mem_append_left _ hj)⟩
        · intro n hn
          have hlater := hrest.le_first hn
          refine Or.inl ⟨by omega, fun j hj => hgap i hi j (List.mem_append_right _ ?_)⟩
          exact (mem_interleave hrest).mpr (Or.inl ⟨n, hn, hj⟩)
      · have hi : i ∈ interleave line first last own all (last m) items :=
          (mem_interleave hrest).mpr (Or.inr ⟨hall, hafter, hoff⟩)
        exact ⟨Or.inr ⟨hafter, fun j hj => hown j hj i hi⟩,
          ih hrest hsortedrest hafter hoff⟩

/-- An element that is on no line of an item, and not before them, is beside them. -/
theorem beside_of_offLines
    (hfit : line i ≤ prev ∨ (∃ n ∈ items, first n ≤ line i ∧ line i ≤ last n) ∨
      ∀ n ∈ items, Beside line first last own n i)
    (hline : prev < line i) (hoff : ∀ n ∈ items, OffLines line first last n i) :
    ∀ n ∈ items, Beside line first last own n i := by
  obtain hle | ⟨n, hn, hfirst, hlast⟩ | hbeside := hfit
  · omega
  · obtain hlt | hlt := hoff n hn <;> omega
  · exact hbeside

/-- What fits the items fits those after the first. -/
theorem fit_tail {m : ι} (hprev : prev ≤ last m)
    (hfit : line i ≤ prev ∨ (∃ n ∈ m :: items, first n ≤ line i ∧ line i ≤ last n) ∨
      ∀ n ∈ m :: items, Beside line first last own n i) :
    line i ≤ last m ∨ (∃ n ∈ items, first n ≤ line i ∧ line i ≤ last n) ∨
      ∀ n ∈ items, Beside line first last own n i := by
  obtain hle | ⟨n, hn, hlines⟩ | hbeside := hfit
  · exact Or.inl (hle.trans hprev)
  · obtain rfl | hn := List.mem_cons.mp hn
    · exact Or.inl hlines.2
    · exact Or.inr (Or.inl ⟨n, hn, hlines⟩)
  · exact Or.inr (Or.inr (List.forall_mem_cons.mp hbeside).2)

/-- Elements on lines of items or beside them come in order. -/
theorem pairwise_interleave (h : LinesOrdered first last prev items)
    (hall : all.Pairwise (· < ·)) (hmono : ∀ i ∈ all, ∀ j ∈ all, line i < line j → i < j)
    (hown : ∀ n ∈ items, (own n).Pairwise (· < ·))
    (horder : items.Pairwise fun n m => ∀ i ∈ own n, ∀ j ∈ own m, i < j)
    (hfit : ∀ i ∈ all, line i ≤ prev ∨ (∃ n ∈ items, first n ≤ line i ∧ line i ≤ last n) ∨
      ∀ n ∈ items, Beside line first last own n i) :
    (interleave line first last own all prev items).Pairwise (· < ·) := by
  induction items generalizing prev with
  | nil => exact hall.filter _
  | cons m items ih =>
      obtain ⟨hprev, hm, hrest⟩ := h
      obtain ⟨hmorder, horder⟩ := List.pairwise_cons.mp horder
      obtain ⟨hmown, hown⟩ := List.forall_mem_cons.mp hown
      have hrestfit := fun i hi => fit_tail (by omega) (hfit i hi)
      rw [interleave, List.append_assoc, List.pairwise_append, List.pairwise_append]
      refine ⟨hall.filter _, ⟨hmown, ih hrest hown horder hrestfit, ?_⟩, ?_⟩
      · intro i hi j hj
        obtain ⟨n, hn, hj⟩ | ⟨hj, hline, hoff⟩ := (mem_interleave hrest).mp hj
        · exact hmorder n hn i hi j hj
        · have hmbeside := beside_of_offLines (hfit j hj) (by omega)
            (List.forall_mem_cons.mpr ⟨Or.inr hline, hoff⟩) m List.mem_cons_self
          obtain ⟨hlt, -⟩ | ⟨-, hafter⟩ := hmbeside
          · omega
          · exact hafter i hi
      · intro i hi j hj
        obtain ⟨hi, hline, hgap⟩ : i ∈ all ∧ prev < line i ∧ line i < first m := by
          simpa using hi
        have hlater : ∀ n ∈ m :: items, first m ≤ first n ∧ first n ≤ last n := by
          refine List.forall_mem_cons.mpr ⟨⟨le_rfl, hm⟩, fun n hn => ?_⟩
          have hn := hrest.le_first hn
          omega
        have hoff : ∀ n ∈ m :: items, OffLines line first last n i :=
          fun n hn => Or.inl (hgap.trans_le (hlater n hn).1)
        have hbefore : ∀ n ∈ m :: items, ∀ j ∈ own n, i < j := by
          intro n hn
          obtain ⟨-, hbefore⟩ | ⟨hlt, -⟩ :=
            beside_of_offLines (hfit i hi) hline hoff n hn
          · exact hbefore
          · have hn := hlater n hn
            omega
        obtain hj | hj := List.mem_append.mp hj
        · exact hbefore m List.mem_cons_self j hj
        · obtain ⟨n, hn, hj⟩ | ⟨hj, hline, -⟩ := (mem_interleave hrest).mp hj
          · exact hbefore n (List.mem_cons_of_mem m hn) j hj
          · exact hmono i hi j hj (by omega)

/-- The items and their gaps give every element once and in order exactly when the lines
fit. -/
theorem interleave_eq_iff (h : LinesOrdered first last 0 items) (hpos : ∀ i ∈ all, 0 < line i)
    (hall : all.Pairwise (· < ·)) (hmono : ∀ i ∈ all, ∀ j ∈ all, line i < line j → i < j)
    (hown : ∀ n ∈ items, (own n).Pairwise (· < ·)) (hsub : ∀ n ∈ items, own n ⊆ all)
    (horder : items.Pairwise fun n m => ∀ i ∈ own n, ∀ j ∈ own m, i < j) :
    interleave line first last own all 0 items = all ↔
      LinesFit line first last own all items := by
  constructor
  · intro heq
    have hsorted : (interleave line first last own all 0 items).Pairwise (· < ·) := by
      rwa [heq]
    constructor
    · intro i hi howned
      by_contra hoff
      simp only [not_exists, not_and, not_le] at hoff
      obtain ⟨n, hn, hmem⟩ := howned
      have hbeside := beside_of_pairwise h hsorted hi (hpos i hi)
        (fun n hn => (lt_or_ge (line i) (first n)).imp_right (hoff n hn)) n hn
      obtain ⟨-, hlt⟩ | ⟨-, hlt⟩ := hbeside
      · exact lt_irrefl i (hlt i hmem)
      · exact lt_irrefl i (hlt i hmem)
    · intro i hi hfree
      have hmem := (mem_interleave h).mp (heq ▸ hi)
      obtain ⟨n, hn, hmem⟩ | ⟨-, -, hoff⟩ := hmem
      · exact absurd hmem (hfree n hn)
      · exact beside_of_pairwise h hsorted hi (hpos i hi) hoff
  · intro hfit
    have hcases : ∀ i ∈ all, line i ≤ 0 ∨ (∃ n ∈ items, first n ≤ line i ∧ line i ≤ last n) ∨
        ∀ n ∈ items, Beside line first last own n i := by
      intro i hi
      by_cases howned : ∃ n ∈ items, i ∈ own n
      · exact Or.inr (Or.inl (hfit.inside i hi howned))
      · exact Or.inr (Or.inr (hfit.outside i hi fun n hn hmem => howned ⟨n, hn, hmem⟩))
    apply (pairwise_interleave h hall hmono hown horder hcases).eq_of_mem_iff hall
    intro i
    rw [mem_interleave h]
    constructor
    · rintro (⟨n, hn, hmem⟩ | ⟨hi, -⟩)
      · exact hsub n hn hmem
      · exact hi
    · intro hi
      by_cases howned : ∃ n ∈ items, i ∈ own n
      · exact Or.inl howned
      · refine Or.inr ⟨hi, hpos i hi, fun n hn => ?_⟩
        have hbeside := hfit.outside i hi (fun n hn hmem => howned ⟨n, hn, hmem⟩) n hn
        exact hbeside.imp (fun hlt => hlt.1) fun hlt => hlt.1

end LocalGraphRag.Sequences
