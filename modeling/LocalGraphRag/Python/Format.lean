import LocalGraphRag.Python.Json

/-!
# Format strings

`str.format` with named arguments: a doubled brace stands for one, and a name in braces for
its argument. The text put in is not read again, so a template with one open field is what
comes before it, the argument and what comes after.

## Implementation notes

`none` is a raised exception. Fields are plain names: positional fields, attributes,
conversions and format specs are not looked at, and a field with any of them is no name.
-/

namespace LocalGraphRag.Python

/-- Where the reading of a format string stands: outside a field, after one of two braces,
or in a field after some of its name. -/
inductive FormatState
  | literal
  | opened
  | closed
  | field (name : Text)
  deriving DecidableEq

/-- `str.format(**fields)` of what is left to read. -/
def formatFrom (fields : List (Text × Text)) : FormatState → Text → Option Text
  | .literal, [] => some []
  | _, [] => none
  | .literal, c :: s =>
      if c = cp '\x7b' then formatFrom fields .opened s
      else if c = cp '\x7d' then formatFrom fields .closed s
      else (formatFrom fields .literal s).map (c :: ·)
  | .opened, c :: s =>
      if c = cp '\x7b' then (formatFrom fields .literal s).map (c :: ·)
      else if c = cp '\x7d' then none
      else formatFrom fields (.field [c]) s
  | .closed, c :: s =>
      if c = cp '\x7d' then (formatFrom fields .literal s).map (c :: ·) else none
  | .field name, c :: s =>
      if c = cp '\x7d' then
        (fields.lookup name).bind fun value => (formatFrom fields .literal s).map (value ++ ·)
      else formatFrom fields (.field (name ++ [c])) s

def format (fields : List (Text × Text)) (template : Text) : Option Text :=
  formatFrom fields .literal template

variable {fields fields' : List (Text × Text)} {state : FormatState} {s out : Text}

/-- Text is put out before what the rest becomes. -/
theorem map_put_append {put : Text → Text} (hput : ∀ s t, put (s ++ t) = put s ++ t)
    {whole rest : Option Text} {x : Option Text} (h : x.map put = some out)
    (ih : ∀ {out}, x = some out → whole = rest.map (out ++ ·)) :
    whole.map put = rest.map (out ++ ·) := by
  obtain ⟨before, hbefore, rfl⟩ := Option.map_eq_some_iff.mp h
  rw [ih hbefore, Option.map_map]
  congr 1
  funext after
  exact hput before after

/-- The arguments of `fields` are among those of `fields'`. -/
def Includes (fields' fields : List (Text × Text)) : Prop :=
  ∀ name value, fields.lookup name = some value → fields'.lookup name = some value

/-- What is read first has been put out when the rest is read, whatever is given besides the
arguments that it names. -/
theorem formatFrom_append (hfields : Includes fields' fields)
    (h : formatFrom fields state s = some out) (rest : Text) :
    formatFrom fields' state (s ++ rest) =
      (formatFrom fields' .literal rest).map (out ++ ·) := by
  induction s generalizing state out with
  | nil =>
      cases state with
      | literal =>
          obtain rfl := Option.some.inj h
          simp
      | opened | closed | field => exact absurd h (by simp [formatFrom])
  | cons c s ih =>
      have hcons : ∀ s t : Text, c :: (s ++ t) = c :: s ++ t := fun _ _ => rfl
      cases state with
      | literal =>
          simp only [formatFrom, List.cons_append] at h ⊢
          split_ifs at h ⊢
          · exact ih h
          · exact ih h
          · exact map_put_append hcons h ih
      | opened =>
          simp only [formatFrom, List.cons_append] at h ⊢
          split_ifs at h ⊢
          · exact map_put_append hcons h ih
          · exact ih h
      | closed =>
          simp only [formatFrom, List.cons_append] at h ⊢
          split_ifs at h ⊢
          exact map_put_append hcons h ih
      | field name =>
          simp only [formatFrom, List.cons_append] at h ⊢
          split_ifs at h ⊢
          · obtain ⟨value, hvalue, h⟩ := Option.bind_eq_some_iff.mp h
            rw [hfields name value hvalue, Option.bind_some]
            exact map_put_append (fun s t => (List.append_assoc value s t).symm) h ih
          · exact ih h

theorem includes_refl (fields : List (Text × Text)) : Includes fields fields := fun _ _ h => h

theorem includes_append (fields more : List (Text × Text)) : Includes (fields ++ more) fields := by
  intro name value hvalue
  rw [List.lookup_append, hvalue]
  rfl

theorem format_mono (hfields : Includes fields' fields) (h : format fields s = some out) :
    format fields' s = some out := by
  have hread := formatFrom_append hfields h []
  rw [List.append_nil] at hread
  simpa [format, formatFrom] using hread

theorem formatFrom_name {name value : Text} (read : Text) (hname : cp '\x7d' ∉ name)
    (hvalue : fields.lookup (read ++ name) = some value) :
    formatFrom fields (.field read) (name ++ [cp '\x7d']) = some value := by
  induction name generalizing read with
  | nil =>
      rw [List.append_nil] at hvalue
      simp [formatFrom, hvalue]
  | cons c name ih =>
      obtain ⟨hc, hrest⟩ := List.ne_and_not_mem_of_not_mem_cons hname
      rw [List.cons_append, formatFrom, if_neg (Ne.symm hc)]
      apply ih _ hrest
      rwa [List.append_assoc, List.singleton_append]

/-- A name that can stand between braces. -/
structure IsFieldName (name : Text) : Prop where
  ne_nil : name ≠ []
  not_escape : name.head? ≠ some (cp '\x7b')
  not_closed : cp '\x7d' ∉ name

/-- A name in braces. -/
def fieldOf (name : Text) : Text := cp '\x7b' :: name ++ [cp '\x7d']

/-- A field is put out as its value. -/
theorem format_fieldOf {name value : Text} (hname : IsFieldName name)
    (hvalue : fields.lookup name = some value) : format fields (fieldOf name) = some value := by
  cases name with
  | nil => exact absurd rfl hname.ne_nil
  | cons c name =>
      have hopen : c ≠ cp '\x7b' := fun hc => hname.not_escape (congrArg some hc)
      obtain ⟨hclose, hrest⟩ := List.ne_and_not_mem_of_not_mem_cons hname.not_closed
      calc
        format fields (fieldOf (c :: name)) =
            formatFrom fields .opened (c :: (name ++ [cp '\x7d'])) := by
          rw [format, fieldOf, List.cons_append, List.cons_append, formatFrom, if_pos rfl]
        _ = formatFrom fields (.field [c]) (name ++ [cp '\x7d']) := by
          rw [formatFrom, if_neg hopen, if_neg (Ne.symm hclose)]
        _ = some value := formatFrom_name [c] hrest hvalue

/-- A field between two parts that can be formatted without it. -/
theorem format_append_fieldOf {head name tail before value after : Text}
    (hfields : Includes fields' fields) (hhead : format fields head = some before)
    (hname : IsFieldName name) (hvalue : fields'.lookup name = some value)
    (htail : format fields tail = some after) :
    format fields' (head ++ fieldOf name ++ tail) = some (before ++ value ++ after) := by
  have hfield := formatFrom_append (includes_refl fields') (format_fieldOf hname hvalue) tail
  calc
    format fields' (head ++ fieldOf name ++ tail) =
        (format fields' (fieldOf name ++ tail)).map (before ++ ·) := by
      rw [List.append_assoc]
      exact formatFrom_append hfields hhead _
    _ = ((format fields' tail).map (value ++ ·)).map (before ++ ·) :=
      congrArg (Option.map (before ++ ·)) hfield
    _ = some (before ++ value ++ after) := by
      rw [format_mono hfields htail, Option.map_some, Option.map_some, List.append_assoc]

end LocalGraphRag.Python
