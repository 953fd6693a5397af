import LocalGraphRag.Graph.Records
import LocalGraphRag.Sequences.Ranking

/-!
# Global retrieval

The summaries of the communities whose embeddings score best against the question's.

## Implementation notes

The score that numpy computes of two vectors and its order are parameters, as is `argsort`,
which leaves the order of equal scores open.
-/

namespace LocalGraphRag.Rag

open LocalGraphRag.Python LocalGraphRag.Sequences
open LocalGraphRag.Graph (CommunityRow)

structure GlobalContext where
  communitySummaries : List Text
  communityIds : List ℕ
  deriving DecidableEq

/-- What numpy does with the vector of the question and the bytes of an embedding. -/
structure Scoring (α σ : Type) where
  score : List α → Bytes → σ
  argsort : List σ → List ℕ

section Retrieve
variable {ε α σ : Type} (scoring : Scoring α σ) (n : ℕ) (communities : List CommunityRow)

/-- The communities with a summary and an embedding. -/
def relevant : List CommunityRow :=
  communities.filter fun c => c.embedding.isSome && c.summary ≠ []

/-- `has_community_summaries`. -/
def hasCommunitySummaries : Bool :=
  communities.any fun c => c.embedding.isSome && c.summary ≠ []

/-- Those whose embedding has the bytes of a `float32` vector like that of the question. -/
def usable (qVec : List α) : List CommunityRow :=
  (relevant communities).filter fun c => (c.embedding.getD []).length = 4 * qVec.length

def scoreOf (qVec : List α) (c : CommunityRow) : σ := scoring.score qVec (c.embedding.getD [])

/-- The best communities for the vector of a question. -/
def topCommunities (qVec : List α) : List CommunityRow :=
  let found := usable communities qVec
  pick found ((scoring.argsort (found.map (scoreOf scoring qVec))).reverse.take n)

def contextOf (top : List CommunityRow) : GlobalContext :=
  ⟨top.map CommunityRow.summary, top.map CommunityRow.id⟩

/-- `global_retrieve`. -/
def globalRetrieve (embed : Except ε (List α)) : Except ε GlobalContext :=
  if relevant communities = [] then .ok (contextOf [])
  else embed.bind fun qVec =>
    if usable communities qVec = [] then .ok (contextOf [])
    else .ok (contextOf (topCommunities scoring n communities qVec))

end Retrieve

section Found
variable {ε α σ : Type} {scoring : Scoring α σ} {n : ℕ} {communities : List CommunityRow}

theorem hasCommunitySummaries_iff :
    hasCommunitySummaries communities = true ↔ relevant communities ≠ [] := by
  rw [hasCommunitySummaries, relevant, List.any_eq_true, Ne, List.filter_eq_nil_iff]
  push Not
  rfl

/-- Whatever the vectors are, the retrieval gives the best of the communities that it can
compare with the question. -/
theorem globalRetrieve_eq [Preorder σ] (hsort : ∀ scores, IsArgsort scores (scoring.argsort scores))
    (qVec : List α) : ∃ top,
      globalRetrieve (ε := ε) scoring n communities (.ok qVec) = .ok (contextOf top) ∧
      Best (fun c d => scoreOf scoring qVec d ≤ scoreOf scoring qVec c) n
        (usable communities qVec) top := by
  have hbest : Best (fun c d => scoreOf scoring qVec d ≤ scoreOf scoring qVec c) n
      (usable communities qVec) (topCommunities scoring n communities qVec) := best_pick (hsort _) n
  have hempty : usable communities qVec = [] →
      topCommunities scoring n communities qVec = [] := by
    intro hnil
    have hlength := hbest.length
    rw [hnil, List.length_nil, Nat.min_zero] at hlength
    exact List.length_eq_zero_iff.mp hlength
  refine ⟨topCommunities scoring n communities qVec, ?_, hbest⟩
  rw [globalRetrieve]
  split_ifs with hrelevant
  · rw [hempty (by rw [usable, hrelevant, List.filter_nil])]
  · change (if usable communities qVec = [] then _ else _) = _
    split_ifs with husable
    · rw [hempty husable]
    · rfl

end Found

end LocalGraphRag.Rag
