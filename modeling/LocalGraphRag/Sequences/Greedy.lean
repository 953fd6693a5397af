import Mathlib.Data.List.Chain

/-!
# Greedy grouping

A sequence is cut into groups in one pass: an item joins the group in hand if it fits
there, else it starts the next group. The groups are determined by the items.
-/

namespace LocalGraphRag.Sequences

variable {α β : Type*} (fits : List α → α → Prop)

/-- Every item of the group fits after those before it. -/
def Packed (g : List α) : Prop := ∀ p x, p ≠ [] → p ++ [x] <+: g → fits p x

/-- The groups of a sequence: none is empty, each is packed, and the first item of a group
does not fit into the group before it. -/
structure Greedy (items : List α) (groups : List (List α)) : Prop where
  flatten : groups.flatten = items
  ne_nil : ∀ g ∈ groups, g ≠ []
  packed : ∀ g ∈ groups, Packed fits g
  cut : groups.IsChain fun g h => ∀ x ∈ h.head?, ¬fits g x

variable {fits} {g : List α} {x : α} {items : List α} {groups : List (List α)}

theorem packed_singleton (x : α) : Packed fits [x] := by
  intro p y hp hstarts
  have hlen := hstarts.length_le
  have hpos := List.length_pos_iff.mpr hp
  simp only [List.length_append, List.length_singleton] at hlen
  omega

theorem Packed.concat (h : Packed fits g) (hx : fits g x) : Packed fits (g ++ [x]) := by
  intro p y hp hstarts
  obtain heq | hshort := List.prefix_concat_iff.mp hstarts
  · obtain ⟨rfl, hy⟩ := List.append_inj' heq rfl
    rw [List.cons_eq_cons] at hy
    exact hy.1 ▸ hx
  · exact h p y hp hshort

/-- No items, no groups. -/
theorem greedy_nil : Greedy fits [] [] :=
  ⟨rfl, by simp, by simp, List.isChain_nil⟩

/-- An item that fits joins the last group. -/
theorem Greedy.join (h : Greedy fits items (groups ++ [g])) (hx : fits g x) :
    Greedy fits (items ++ [x]) (groups ++ [g ++ [x]]) := by
  have hlast : g ∈ groups ++ [g] := List.mem_concat_self
  have hother : ∀ k ∈ groups, k ∈ groups ++ [g] := fun k hk => List.mem_append_left _ hk
  constructor
  · rw [← h.flatten]
    simp
  · intro k hk
    obtain hk | hk := List.mem_append.mp hk
    · exact h.ne_nil k (hother k hk)
    · rw [List.mem_singleton.mp hk]
      exact List.concat_ne_nil x g
  · intro k hk
    obtain hk | hk := List.mem_append.mp hk
    · exact h.packed k (hother k hk)
    · rw [List.mem_singleton.mp hk]
      exact (h.packed g hlast).concat hx
  · have hhead : (g ++ [x]).head? = g.head? := List.head?_append_of_ne_nil g (h.ne_nil g hlast)
    have hcut := List.isChain_append.mp h.cut
    apply List.isChain_append.mpr
    refine ⟨hcut.1, List.isChain_singleton _, ?_⟩
    intro k hk m hm y hy
    rw [List.head?_singleton, Option.mem_some_iff] at hm
    subst hm
    rw [hhead] at hy
    exact hcut.2.2 k hk g rfl y hy

/-- An item that does not fit starts a group. -/
theorem Greedy.start (h : Greedy fits items groups)
    (hx : ∀ g ∈ groups.getLast?, ¬fits g x) : Greedy fits (items ++ [x]) (groups ++ [[x]]) := by
  constructor
  · rw [← h.flatten]
    simp
  · intro k hk
    obtain hk | hk := List.mem_append.mp hk
    · exact h.ne_nil k hk
    · rw [List.mem_singleton.mp hk]
      exact List.cons_ne_nil x []
  · intro k hk
    obtain hk | hk := List.mem_append.mp hk
    · exact h.packed k hk
    · rw [List.mem_singleton.mp hk]
      exact packed_singleton x
  · apply List.isChain_append.mpr
    refine ⟨h.cut, List.isChain_singleton _, ?_⟩
    intro k hk m hm y hy
    rw [List.head?_singleton, Option.mem_some_iff] at hm
    subst hm
    rw [List.head?_singleton, Option.mem_some_iff] at hy
    subst hy
    exact hx k hk

/-- The group in hand, if it has any items yet. -/
def openGroup (g : List α) : List (List α) := if g.isEmpty then [] else [g]

@[simp] theorem openGroup_nil : openGroup ([] : List α) = [] := rfl

theorem openGroup_of_ne_nil (h : g ≠ []) : openGroup g = [g] := by
  rw [openGroup, if_neg (mt List.isEmpty_iff.mp h)]

/-- The next item goes to the group in hand, where it fits, or starts a group. -/
theorem Greedy.next (h : Greedy fits items (groups ++ openGroup g)) (hfits : g ≠ [] → fits g x)
    (hcut : g = [] → ∀ k ∈ groups.getLast?, ¬fits k x) :
    Greedy fits (items ++ [x]) (groups ++ openGroup (g ++ [x])) := by
  rw [openGroup_of_ne_nil (List.concat_ne_nil x g)]
  by_cases hg : g = []
  · subst hg
    rw [openGroup_nil, List.append_nil] at h
    exact h.start (hcut rfl)
  · rw [openGroup_of_ne_nil hg] at h
    exact h.join (hfits hg)

/-- Two packed beginnings of the same items, each ended by an item that does not fit or by
the end of the items, are the same. -/
theorem packed_unique {g h r s : List α} (hne : g ≠ []) (heq : g ++ r = h ++ s)
    (hcut : ∀ x ∈ r.head?, ¬fits g x) (hpacked : Packed fits h) (hlen : g.length ≤ h.length) :
    g = h := by
  obtain ⟨t, rfl⟩ : g <+: h := List.prefix_of_prefix_length_le ⟨r, heq⟩ ⟨s, rfl⟩ hlen
  cases t with
  | nil => exact (List.append_nil g).symm
  | cons x t =>
      have hr : r = x :: t ++ s := by
        rw [List.append_assoc] at heq
        exact List.append_cancel_left heq
      have hx : x ∈ r.head? := by
        rw [hr]
        rfl
      have hstarts : g ++ [x] <+: g ++ x :: t := ⟨t, by simp⟩
      exact absurd (hpacked g x hne hstarts) (hcut x hx)

/-- The groups after the first are those of the items after it. -/
theorem Greedy.tail (h : Greedy fits items (g :: groups)) :
    Greedy fits groups.flatten groups ∧ ∀ x ∈ groups.flatten.head?, ¬fits g x := by
  refine ⟨⟨rfl, fun k hk => h.ne_nil k (List.mem_cons_of_mem g hk),
    fun k hk => h.packed k (List.mem_cons_of_mem g hk), h.cut.tail⟩, ?_⟩
  cases groups with
  | nil => simp
  | cons k groups =>
      have hk : k ≠ [] := h.ne_nil k (by simp)
      intro x hx
      rw [List.flatten_cons, List.head?_append_of_ne_nil k hk] at hx
      exact (List.isChain_cons_cons.mp h.cut).1 x hx

/-- The items determine their groups. -/
theorem Greedy.unique {groups' : List (List α)} (h : Greedy fits items groups)
    (h' : Greedy fits items groups') : groups = groups' := by
  induction groups generalizing items groups' with
  | nil =>
      cases groups' with
      | nil => rfl
      | cons k groups' =>
          have hk := h'.flatten.trans h.flatten.symm
          rw [List.flatten_cons, List.flatten_nil, List.append_eq_nil_iff] at hk
          exact absurd hk.1 (h'.ne_nil k List.mem_cons_self)
  | cons g groups ih =>
      cases groups' with
      | nil =>
          have hg := h.flatten.trans h'.flatten.symm
          rw [List.flatten_cons, List.flatten_nil, List.append_eq_nil_iff] at hg
          exact absurd hg.1 (h.ne_nil g List.mem_cons_self)
      | cons k groups' =>
          obtain ⟨hrest, hcut⟩ := h.tail
          obtain ⟨hrest', hcut'⟩ := h'.tail
          have heq : g ++ groups.flatten = k ++ groups'.flatten :=
            h.flatten.trans h'.flatten.symm
          have hg := h.ne_nil g List.mem_cons_self
          have hk := h'.ne_nil k List.mem_cons_self
          have hgk : g = k := by
            obtain hle | hle := Nat.le_total g.length k.length
            · exact packed_unique hg heq hcut (h'.packed k List.mem_cons_self) hle
            · exact (packed_unique hk heq.symm hcut' (h.packed g List.mem_cons_self) hle).symm
          subst hgk
          have hflat := List.append_cancel_left heq
          rw [ih hrest (hflat ▸ hrest')]

/-- Where it only depends on the item whether it starts a group, the groups begin at the
first item and at those. -/
theorem Greedy.starts_iff {cuts : α → Prop} (h : Greedy (fun _ x => ¬cuts x) items groups)
    {i : Nat} (hi : 0 < i) (hx : items[i]? = some x) :
    (∃ before after, groups = before ++ after ∧ before.flatten.length = i) ↔ cuts x := by
  induction groups generalizing items i with
  | nil =>
      have hnil : items = [] := h.flatten.symm
      rw [hnil] at hx
      exact absurd hx (by simp)
  | cons g groups ih =>
      obtain ⟨hrest, hcut⟩ := h.tail
      have hitems : g ++ groups.flatten = items := h.flatten
      have hg : 0 < g.length := List.length_pos_iff.mpr (h.ne_nil g List.mem_cons_self)
      rw [← hitems] at hx
      obtain hlt | heq | hgt := Nat.lt_trichotomy i g.length
      · -- The item is in the first group, and not its first.
        have hnot : ¬cuts x := by
          apply h.packed g List.mem_cons_self (g.take i)
          · apply List.ne_nil_of_length_pos
            rw [List.length_take]
            omega
          · rw [List.getElem?_append_left hlt] at hx
            obtain ⟨_, rfl⟩ := List.getElem?_eq_some_iff.mp hx
            rw [← List.take_succ_eq_append_getElem hlt]
            exact List.take_prefix ..
        refine iff_of_false ?_ hnot
        intro ⟨before, after, hgroups, hlen⟩
        obtain ⟨rfl, -⟩ | ⟨before', rfl, -⟩ := List.cons_eq_append_iff.mp hgroups
        · exact absurd hlen hi.ne
        · rw [List.flatten_cons, List.length_append] at hlen
          omega
      · -- The item is the first of the next group.
        subst heq
        rw [List.getElem?_append_right (Nat.le_refl _), Nat.sub_self] at hx
        have hcuts : cuts x := not_not.mp (hcut x (by rw [List.head?_eq_getElem?, hx]; rfl))
        exact iff_of_true ⟨[g], groups, rfl, by simp⟩ hcuts
      · rw [List.getElem?_append_right (Nat.le_of_lt hgt)] at hx
        rw [← ih hrest (Nat.sub_pos_of_lt hgt) hx]
        constructor
        · intro ⟨before, after, hgroups, hlen⟩
          obtain ⟨rfl, -⟩ | ⟨before', rfl, hafter⟩ := List.cons_eq_append_iff.mp hgroups
          · exact absurd hlen hi.ne
          · rw [List.flatten_cons, List.length_append] at hlen
            exact ⟨before', after, hafter, by omega⟩
        · intro ⟨before, after, hgroups, hlen⟩
          refine ⟨g :: before, after, by rw [hgroups]; rfl, ?_⟩
          rw [List.flatten_cons, List.length_append]
          omega

/-- Two cuts of the same items into groups are the same if they look the same, and no group
looks like one that continues it. -/
theorem groups_eq_of_map_eq {f : List α → β} (hf : ∀ g t, g ≠ [] → t ≠ [] → f g ≠ f (g ++ t))
    {groups groups' : List (List α)} (hne : ∀ g ∈ groups, g ≠ []) (hne' : ∀ g ∈ groups', g ≠ [])
    (hflat : groups.flatten = groups'.flatten) (hmap : groups.map f = groups'.map f) :
    groups = groups' := by
  induction groups generalizing groups' with
  | nil => exact (List.map_eq_nil_iff.mp hmap.symm).symm
  | cons g groups ih =>
      cases groups' with
      | nil => exact absurd hmap (List.cons_ne_nil _ _)
      | cons k groups' =>
          simp only [List.map_cons, List.cons.injEq] at hmap
          rw [List.flatten_cons, List.flatten_cons] at hflat
          obtain ⟨hg, hrest⟩ := List.forall_mem_cons.mp hne
          obtain ⟨hk, hrest'⟩ := List.forall_mem_cons.mp hne'
          have hgk : g = k := by
            obtain ⟨t, rfl, -⟩ | ⟨t, rfl, -⟩ := List.append_eq_append_iff.mp hflat
            · by_contra hdiff
              exact hf g t hg (fun ht => hdiff (by simp [ht])) hmap.1
            · by_contra hdiff
              exact hf k t hk (fun ht => hdiff (by simp [ht])) hmap.1.symm
          subst hgk
          rw [ih hrest hrest' (List.append_cancel_left hflat) hmap.2]

end LocalGraphRag.Sequences
