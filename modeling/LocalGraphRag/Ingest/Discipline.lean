import LocalGraphRag.Effects.Safety
import LocalGraphRag.Ingest.Steps

/-!
# Disciplines

A `Discipline` says what a group of results assumes of the environment and
which property of fingerprinted files it then claims. `Keeps` is crash safety
under a discipline: the invariant holds after each call of the program.

## Implementation notes

The invariant is a conjunction over files. A call changes the view of one file
only, so each call owes the invariant of that file's new view and nothing else.
Before the fingerprint is written the claimed property holds trivially, which
is why the discipline speaks of finished views only.
-/

namespace LocalGraphRag.Ingest

open Python Relational LocalGraphRag.Graph Effects

namespace FileView

/-- A file without chunks has left nothing that only chunks would lead to. -/
def Rooted (v : FileView) : Prop :=
  v.chunks = ∅ → v.mentions = ∅ ∧ v.relationships = ∅

/-- Every cached reply answered a request with the digest it is cached under. -/
def CacheSound (lib : Builtins) (ollama : Ollama) (v : FileView) : Prop :=
  ∀ c ∈ v.cached, Answered lib ollama c.promptSha256 c.result

/-- The view of a file with nothing but a cache and a fingerprint. -/
def bare (cached : Finset CacheRow) (fingerprint : Option Text) : FileView :=
  ⟨∅, ∅, ∅, ∅, ∅, cached, fingerprint⟩

end FileView

/-- Assumptions on the environment, and what they make of fingerprinted files. -/
structure Discipline (lib : Builtins) where
  guard : World → Call → Choice → Prop
  ollama : Ollama
  SameRead : Text → Bytes → Bytes → Prop
  Uses : Settings → Prop
  Kept : Text → FileView → Prop
  generates : ∀ {w payload keepAlive r}, guard w (.generate payload keepAlive) (.reply r) →
    ollama.Generates payload r
  embeds : ∀ {w texts v}, guard w (.embedSlice texts) (.vectors v) → ollama.Embeds texts v
  sameRead : ∀ {w p b b'}, guard w (.readFile p) (.bytes b') → w.hashed = some (p, b) →
    SameRead p b b'
  unmarked : ∀ {p v}, v.fingerprint = none → Kept p v
  recache : ∀ {p v} cached, Kept p v → Kept p { v with cached := cached }
  drop : ∀ {w ids c} p, guard w (.deletePoints ids) c → Kept p (w.view p) →
    Kept p ((w.step (.deletePoints ids) c).2.view p)
  emptied : ∀ {cfg p b b'} cached, Uses cfg → SameRead p b b' →
    chunkFile cfg p (lib.decode b') = .ok [] →
      Kept p (FileView.bare cached (some (lib.sha256 b)))
  written : ∀ {cfg p b b'} cached, Uses cfg → SameRead p b b' →
    ∀ x : Indexing lib ollama cfg p (lib.decode b'), x.result.hadFailure = false →
      Kept p (x.view cached (some (lib.sha256 b)))

namespace Discipline

variable {lib : Builtins} (D : Discipline lib)

/-- The invariant of one file. -/
structure FileInv (p : Text) (v : FileView) : Prop where
  tracked : v.Tracked
  rooted : v.Rooted
  cacheSound : v.CacheSound lib D.ollama
  kept : D.Kept p v

/-- The invariant of the world. -/
def Inv (w : World) : Prop := ∀ p, D.FileInv p (w.view p)

variable {D}

theorem Inv.tracked {w : World} (hw : D.Inv w) (p : Text) : (w.view p).Tracked :=
  (hw p).tracked

theorem Inv.cacheSound {w : World} {p : Text} {v : FileView} (hw : D.Inv w)
    (hview : w.view p = v) : (FileView.bare v.cached none).CacheSound lib D.ollama :=
  hview ▸ (hw p).cacheSound

theorem Inv.of_elsewhere {w w' : World} {p : Text} (hw : D.Inv w)
    (h : SameElsewhere p w w') (hp : D.FileInv p (w'.view p)) : D.Inv w' := by
  intro q
  by_cases hq : q = p
  · exact hq ▸ hp
  · exact h q hq ▸ hw q

theorem Inv.of_views {w w' : World} (hw : D.Inv w) (h : ∀ q, w'.view q = w.view q) :
    D.Inv w' := fun q => (h q).symm ▸ hw q

/-- The invariant of a file that has neither chunks nor points. -/
theorem fileInv_bare {p : Text} {cached : Finset CacheRow} {fingerprint : Option Text}
    (hcache : (FileView.bare cached fingerprint).CacheSound lib D.ollama)
    (hkept : D.Kept p (FileView.bare cached fingerprint)) :
    D.FileInv p (FileView.bare cached fingerprint) where
  tracked := by simp [FileView.Tracked, FileView.pointIds, FileView.bare]
  rooted := fun _ => ⟨rfl, rfl⟩
  cacheSound := hcache
  kept := hkept

/-- The invariant of a file that has chunks, or none and nothing else. -/
theorem fileInv_unmarked {p : Text} {v : FileView} (htracked : v.Tracked)
    (hrooted : v.Rooted) (hcache : v.CacheSound lib D.ollama)
    (hnone : v.fingerprint = none) : D.FileInv p v :=
  ⟨htracked, hrooted, hcache, D.unmarked hnone⟩

end Discipline

section Programs
variable {lib : Builtins} {D : Discipline lib} {w : World} {p : Text}

/-- The safety of a program under a discipline. -/
abbrev Keeps (D : Discipline lib) {α : Type} (m : Indexer α)
    (Q : Except Failure α → World → Prop) (w : World) : Prop :=
  Safe World.step D.guard D.Inv m Q w

/-- The program is safe, and this holds of what it returns. -/
abbrev Leaves (D : Discipline lib) {α : Type} (m : Indexer α) (R : α → World → Prop)
    (w : World) : Prop :=
  Establishes World.step D.guard D.Inv m R w

/-- A call that writes nothing, followed by the rest of a program. -/
theorem safe_read {α : Type} {o : Call} {f : o.Ret → Indexer α}
    {Q : Except Failure α → World → Prop} (hw : D.Inv w) (ho : o.writes = false)
    (herr : ∀ e w', D.Inv w' → (∀ q, w'.view q = w.view q) → w'.store = w.store →
      Q (.error e) w')
    (hok : ∀ a c w', D.guard w o c → w.step o c = (.ok a, w') → D.Inv w' →
      (∀ q, w'.view q = w.view q) → w'.store = w.store → Keeps D (f a) Q w') :
    Keeps D ((Prog.perform o).bind f) Q w := by
  refine safe_perform_bind fun c hc => ?_
  have hview := step_view w ho c
  have hstore := (step_keeps w ho c).1
  have hinv := hw.of_views hview
  cases hr : w.step o c with
  | mk r w' =>
      rw [hr] at hview hstore hinv
      refine ⟨hinv, ?_⟩
      cases r with
      | error e => exact herr e w' hinv hview hstore
      | ok a => exact hok a c w' hc hr hinv hview hstore

/-- A call that writes nothing and whose exception is not caught. -/
theorem read_establishes {o : Call} (hw : D.Inv w) (ho : o.writes = false) :
    Leaves D (Prog.perform o) (fun a w' => (∀ q, w'.view q = w.view q) ∧ w'.store = w.store ∧
      ∃ c, D.guard w o c ∧ w.step o c = (.ok a, w')) w := by
  refine safe_perform fun c hc => ?_
  have hview := step_view w ho c
  have hinv := hw.of_views hview
  refine ⟨hinv, hinv, fun a ha => ⟨hview, (step_keeps w ho c).1, c, hc, ?_⟩⟩
  rw [← ha]

theorem view_filter_points_tracked {v : FileView} (hv : v.Tracked) (s : Finset Point)
    (hs : s ⊆ v.points) : ({ v with points := s } : FileView).Tracked :=
  (Finset.image_subset_image hs).trans hv

/-- A transaction of one file: its outcome keeps the invariant if the file it
leaves does. -/
theorem safe_write {op : StoreWrite} {Q : Except Failure Unit → World → Prop}
    (hfail : ∀ e, D.Inv w ∧ Q (.error e) w)
    (hok : ∀ s', op.apply w.store = .ok s' →
      D.Inv { w with store := s' } ∧ Q (.ok ()) { w with store := s' }) :
    Keeps D (Prog.perform (Call.write op)) Q w := by
  refine safe_perform fun c _ => ?_
  obtain ⟨s', hs', h⟩ | ⟨e, h⟩ := step_write w op c
  · rw [h]
    exact hok s' hs'
  · rw [h]
    exact hfail e

end Programs

end LocalGraphRag.Ingest
