import LocalGraphRag.Numbers.Rounding
import LocalGraphRag.Python.Json

/-!
# The streamed reply of Ollama

A reply comes as lines of JSON, each with a piece of the text. What the generator yields is cut
short by an error in a line, by the line that says it is the last one, and by the cancel flag.

## Implementation notes

The connection gives lines and then ends or breaks off. `json.loads` refuses some texts with
another exception than `JSONDecodeError`, such as a number of too many digits: which ones is a
parameter. A literal with a fraction or an exponent is rounded to double precision, and one
without is an integer, which must fit in double precision where it is divided.
-/

namespace LocalGraphRag.Rag

open LocalGraphRag.Numbers LocalGraphRag.Python

section Numbers
variable (literal : Text)

/-- The literals that are no numerals; as numbers they count as true. -/
def IsConstant : Prop :=
  literal = text "NaN" ∨ literal = text "Infinity" ∨ literal = text "-Infinity"

instance : Decidable (IsConstant literal) := inferInstanceAs (Decidable (_ ∨ _))

/-- `bool(number)`: an integer by its value, any other number by what it rounds to. -/
def isNonzero : Bool :=
  IsConstant literal ∨
    if IsIntLiteral (literal.map Fin.val) then intValue (literal.map Fin.val) ≠ 0
    else binary64.round (literalValue (literal.map Fin.val)) ≠ 0

/-- A number that can be divided by a float: an integer is made one, which must not overflow. -/
def isDivisible : Bool :=
  IsIntLiteral (literal.map Fin.val) → ¬ IsConstant literal →
    |binary64.round (intValue (literal.map Fin.val))| < 2 ^ 1024

end Numbers

/-- `bool(value)`. -/
def isTruthy : Json → Bool
  | .null => false
  | .bool b => b
  | .num literal => isNonzero literal
  | .str s => s ≠ []
  | .arr items => !items.isEmpty
  | .obj members => !members.isEmpty

section Timings
variable (data : List (Text × Json))

/-- `data.get(key, 0)` can be divided. -/
def isDuration (key : Text) : Bool :=
  match Json.get data key with
  | none => true
  | some (.num literal) => isDivisible literal
  | some (.bool _) => true
  | _ => false

/-- `_log_timings` does not raise. -/
def logsTimings : Bool :=
  isDuration data (text "load_duration") && isDuration data (text "prompt_eval_duration") &&
    isDuration data (text "eval_duration")

end Timings

/-- Whether the generator came to its end or raised. -/
inductive StreamEnd where
  | returned
  | raised
  deriving DecidableEq

/-- A line of the reply, and whether the cancel flag is set when it comes. -/
structure StreamLine where
  cancelled : Bool
  line : Text

/-- What the connection does behind the last line. -/
inductive ConnectionEnd where
  | closed
  | broken
  deriving DecidableEq

section Generate
variable (recursionLimit : ℕ) (raises : Text → Bool) (connectionEnd : ConnectionEnd)

/-- The rest of the loop of `stream_generate`, for the lines that are still to come. -/
def streamGenerate : List StreamLine → List Json × StreamEnd
  | [] => ([], if connectionEnd = .closed then .returned else .raised)
  | ⟨cancelled, line⟩ :: lines =>
      if cancelled then ([], .returned)
      else if line = [] then streamGenerate lines
      else
        match Json.loads recursionLimit line with
        | none => if raises line then ([], .raised) else streamGenerate lines
        | some (.obj data) =>
            if (Json.get data (text "error")).any isTruthy then ([], .raised)
            else
              let response := ((Json.get data (text "response")).filter isTruthy).toList
              if (Json.get data (text "done")).any isTruthy then
                (response, if logsTimings data then .returned else .raised)
              else
                let rest := streamGenerate lines
                (response ++ rest.1, rest.2)
        | some _ => ([], .raised)

/-- The piece of the text in a line that is well formed, and whether it is the last one. -/
def readPiece (l : StreamLine) : Option (Text × Bool) :=
  match Json.loads recursionLimit l.line with
  | some (.obj data) =>
      match Json.get data (text "response") with
      | some (.str t) =>
          if l.cancelled ∨ l.line = [] ∨ (Json.get data (text "error")).any isTruthy ∨
              ¬ logsTimings data then none
          else some (t, (Json.get data (text "done")).any isTruthy)
      | _ => none
  | _ => none

variable {recursionLimit}

theorem readPiece_eq_some {l : StreamLine} {t : Text} {last : Bool}
    (h : readPiece recursionLimit l = some (t, last)) : l.cancelled = false ∧ l.line ≠ [] ∧
      ∃ data, Json.loads recursionLimit l.line = some (.obj data) ∧
        (Json.get data (text "error")).any isTruthy = false ∧
          Json.get data (text "response") = some (.str t) ∧
            (Json.get data (text "done")).any isTruthy = last ∧ logsTimings data = true := by
  rw [readPiece] at h
  split at h
  · rename_i data hdata
    split at h
    · rename_i t' hresponse
      obtain ⟨hwell, hpiece⟩ := Option.ite_none_left_eq_some.mp h
      cases hpiece
      simp only [not_or, Bool.not_eq_true, Bool.not_eq_false] at hwell
      exact ⟨hwell.1, hwell.2.1, data, hdata, hwell.2.2.1, hresponse, rfl, hwell.2.2.2⟩
    · cases h
  · cases h

theorem filter_response (t : Text) : ((some (Json.str t)).filter isTruthy).toList =
    ([t].filter (· ≠ [])).map Json.str := by
  by_cases ht : t = []
  · rw [ht]
    rfl
  · simp [Option.filter, isTruthy, ht]

/-- The generator yields the text of a reply, up to the line that says it is the last one. -/
theorem streamGenerate_reply {pieces : List (StreamLine × Text)} {last : StreamLine} {t : Text}
    (hpieces : ∀ p ∈ pieces, readPiece recursionLimit p.1 = some (p.2, false))
    (hlast : readPiece recursionLimit last = some (t, true)) (lines : List StreamLine) :
    streamGenerate recursionLimit raises connectionEnd (pieces.map Prod.fst ++ last :: lines) =
      (((pieces.map Prod.snd ++ [t]).filter (· ≠ [])).map Json.str, .returned) := by
  induction pieces with
  | nil =>
      obtain ⟨hcancelled, hline, data, hdata, herror, hresponse, hdone, htimings⟩ :=
        readPiece_eq_some hlast
      rw [List.map_nil, List.nil_append, List.map_nil, List.nil_append, ← filter_response]
      simp [streamGenerate, hcancelled, hline, hdata, herror, hresponse, hdone, htimings]
  | cons p pieces ih =>
      obtain ⟨hp, hpieces⟩ := List.forall_mem_cons.mp hpieces
      obtain ⟨hcancelled, hline, data, hdata, herror, hresponse, hdone, -⟩ := readPiece_eq_some hp
      have hsplit : ((p :: pieces).map Prod.snd ++ [t]).filter (· ≠ []) =
          [p.2].filter (· ≠ []) ++ (pieces.map Prod.snd ++ [t]).filter (· ≠ []) := by
        rw [← List.filter_append]
        rfl
      rw [hsplit, List.map_append, ← filter_response]
      simp [streamGenerate, hcancelled, hline, hdata, herror, hresponse, hdone, ih hpieces]

end Generate

end LocalGraphRag.Rag
