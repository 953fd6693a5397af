import LocalGraphRag.Graph.Communities

/-!
# Lines of a prompt

The prompts of an answer and of a summary show entities and relationships in the same lines.
They differ in how much of a description they show.

## Implementation notes

`names` is a dictionary of the ids of some rows: the last row with an id names it, and an id
without a row has its own text as its name.
-/

namespace LocalGraphRag.Graph

open Python Relational

/-- `value or other`. -/
def orElseText (value : Option Text) (other : Text) : Text :=
  if value.getD [] = [] then other else value.getD []

/-- `names.get(id, id)`. -/
def nameOf (entities : List EntityRow) (id : Text) : Text :=
  ((entities.reverse.find? fun e => e.id = id).map EntityRow.name).getD id

/-- The line of an entity, with what is shown of its description. -/
def lineOfEntity (e : EntityRow) (description : Text) : Text :=
  text "- " ++ e.name ++ text " (" ++ orElseText e.type (text "unknown") ++ text "): " ++
    description

/-- The line of a relationship. -/
def lineOfEdge (entities : List EntityRow) (r : CommunityEdge) : Text :=
  text "- " ++ nameOf entities r.sourceId ++ text " --[" ++ r.label ++ text "]--> " ++
    nameOf entities r.targetId

section Order
variable {entities entities' : List EntityRow}

/-- The order of the rows has no part in the name of an id that only one of them has. -/
theorem nameOf_perm (h : entities.Perm entities') (hids : (entities.map EntityRow.id).Nodup)
    (id : Text) : nameOf entities id = nameOf entities' id := by
  have hreverse : entities.reverse.Perm entities'.reverse :=
    List.perm_reverse.mpr (List.reverse_perm'.mpr h)
  have hkeys : (entities.reverse.map EntityRow.id).Nodup := by
    rwa [List.map_reverse, List.nodup_reverse]
  rw [nameOf, nameOf, find?_key_perm hreverse hkeys]

theorem lineOfEdge_perm (h : entities.Perm entities') (hids : (entities.map EntityRow.id).Nodup)
    (r : CommunityEdge) : lineOfEdge entities r = lineOfEdge entities' r := by
  rw [lineOfEdge, lineOfEdge, nameOf_perm h hids, nameOf_perm h hids]

end Order

end LocalGraphRag.Graph
