import MathCanvas.Command.Message
import MathCanvas.Proofs.Expr.Codec
import MathCanvas.Proofs.Json.Fields

/-!
# Messages survive the way through JSON

`RoundTrips` are the laws of the JSON form of a kind of value. They hold of expressions
(`Expr.roundTrips`) and of the messages that carry them (`Envelope.roundTrips`,
`Reply.roundTrips`).
-/

namespace MathCanvas

namespace Expr

/-- The expression that a JSON value is, without the reason if it is none. -/
def ofJson? (value : Json) : Option Expr := (ofJson value).toOption

theorem ofJson?_eq_some_iff {value : Json} {e : Expr} :
    ofJson? value = some e ↔ ofJson value = .ok e := by
  rw [ofJson?]
  cases ofJson value <;> simp [Except.toOption]

end Expr

/-- The only field of a name is one of the fields. -/
theorem Reply.mem_of_uniqueField? {name : String} {fields : List (String × Json)} {value : Json}
    (h : uniqueField? name fields = some value) : (name, value) ∈ fields := by
  unfold uniqueField? at h
  split at h
  · next key found hfilter =>
    cases h
    have hmem : (key, value) ∈ fields.filter (·.1 == name) := by
      rw [hfilter]
      exact List.mem_cons_self
    obtain ⟨hmem, hname⟩ := List.mem_filter.mp hmem
    exact eq_of_beq hname ▸ hmem
  · cases h

/-! ### Envelopes -/

namespace Envelope

/-- The envelope with canonical expressions. -/
def canonical (envelope : Envelope) : Envelope where
  id := envelope.id
  inputs := envelope.inputs.map fun input => (input.1, input.2.canonical)
  expression := envelope.expression.canonical

/-- The fields of an envelope. -/
def fields (envelope : Envelope) : List (String × Json) :=
  [("id", .str envelope.id),
   ("inputs", .obj (envelope.inputs.map fun input => (input.1, input.2.toJson))),
   ("expression", envelope.expression.toJson)]

/-- The JSON value of an envelope. -/
def toJson (envelope : Envelope) : Json := .obj envelope.fields

/-- Reads an envelope from the values of its fields. -/
def ofParts? : Json → Json → Json → Option Envelope
  | .str id, .obj inputs, expression =>
    match inputsOfJson inputs, Expr.ofJson? expression with
    | some inputs, some expression => some ⟨id, Json.sortFields inputs, expression⟩
    | _, _ => none
  | _, _, _ => none

/-- Reads an envelope, an object or an array of the values in the order of the fields. -/
def ofJson? : Json → Option Envelope
  | .arr [id, inputs, expression] => ofParts? id inputs expression
  | .obj fields =>
    (Reply.uniqueField? "id" fields).bind fun id =>
      (Reply.uniqueField? "inputs" fields).bind fun inputs =>
        (Reply.uniqueField? "expression" fields).bind fun expression =>
          ofParts? id inputs expression
  | _ => none

variable {envelope : Envelope} {inputs : Inputs} {fields : List (String × Json)}

/-- Every input is read from a field of its name. -/
theorem exists_of_inputsOfJson (h : inputsOfJson fields = some inputs) {input : String × Expr}
    (hinput : input ∈ inputs) : ∃ value, (input.1, value) ∈ fields ∧
      Expr.ofJson value = .ok input.2 := by
  induction fields generalizing inputs with
  | nil =>
    cases h
    cases hinput
  | cons field rest ih =>
    rw [inputsOfJson] at h
    split at h
    · next e others hfirst hrest =>
      cases h
      rcases List.mem_cons.mp hinput with rfl | hinput
      · exact ⟨field.2, List.mem_cons_self, hfirst⟩
      · obtain ⟨value, hvalue, hread⟩ := ih hrest hinput
        exact ⟨value, List.mem_cons_of_mem _ hvalue, hread⟩
    · cases h

theorem ofParts?_eq_some_iff {id inputs expression : Json} :
    ofParts? id inputs expression = some envelope ↔ id = .str envelope.id ∧
      ∃ fields read, inputs = .obj fields ∧ inputsOfJson fields = some read ∧
        envelope.inputs = Json.sortFields read ∧
        Expr.ofJson expression = .ok envelope.expression := by
  obtain ⟨id', inputs', expression'⟩ := envelope
  unfold ofParts?
  split
  · next id fields =>
    simp only [Json.str.injEq, Json.obj.injEq, ← Expr.ofJson?_eq_some_iff]
    split
    · next read e hread he =>
      simp only [Option.some_inj, mk.injEq, he]
      constructor
      · rintro ⟨rfl, rfl, rfl⟩
        exact ⟨rfl, fields, read, rfl, hread, rfl, rfl⟩
      · rintro ⟨rfl, _, _, rfl, hread', rfl, rfl⟩
        cases hread.symm.trans hread'
        exact ⟨rfl, rfl, rfl⟩
    · next hnone =>
      simp only [reduceCtorEq, false_iff, not_and, not_exists]
      rintro - _ read rfl hread - he
      exact hnone read expression' hread he
  · next hnone =>
    simp only [reduceCtorEq, false_iff, not_and, not_exists]
    rintro rfl fields _ rfl - -
    exact (hnone _ _ rfl rfl).elim

/-- The parts from which an envelope is read are one level inside the JSON value. -/
theorem exists_parts {value : Json} (h : ofJson? value = some envelope) :
    ∃ id inputs expression, ofParts? id inputs expression = some envelope ∧
      inputs.depth < value.depth ∧ expression.depth < value.depth := by
  unfold ofJson? at h
  split at h
  · next id inputs expression =>
    refine ⟨id, inputs, expression, h, Nat.lt_succ_of_le ?_, Nat.lt_succ_of_le ?_⟩ <;>
      exact Json.depth_le_depthItems (by simp)
  · next fields =>
    simp only [Option.bind_eq_some_iff] at h
    obtain ⟨id, -, inputs, hinputs, expression, hexpression, h⟩ := h
    exact ⟨id, inputs, expression, h,
      Nat.lt_succ_of_le (Json.depth_le_depthFields (Reply.mem_of_uniqueField? hinputs)),
      Nat.lt_succ_of_le (Json.depth_le_depthFields (Reply.mem_of_uniqueField? hexpression))⟩
  · cases h

theorem toJson_canonical (envelope : Envelope) : envelope.canonical.toJson = envelope.toJson := by
  simp [toJson, Envelope.fields, canonical, Expr.toJson_canonical]

theorem depth_toJson_le {value : Json} (h : ofJson? value = some envelope) :
    envelope.toJson.depth ≤ value.depth := by
  obtain ⟨_, _, expression, hparts, hinputs, hexpression⟩ := exists_parts h
  obtain ⟨-, fields, read, rfl, hread, hsorted, he⟩ := ofParts?_eq_some_iff.mp hparts
  have hwritten := Expr.depth_toJson_le expression he
  have hfields : Json.depthFields (envelope.inputs.map fun input => (input.1, input.2.toJson)) ≤
      Json.depthFields fields := by
    apply Json.depthFields_le
    intro field hfield
    obtain ⟨input, hinput, rfl⟩ := List.mem_map.mp hfield
    rw [hsorted] at hinput
    obtain ⟨value, hvalue, he⟩ := exists_of_inputsOfJson hread (Json.sortFields_subset _ hinput)
    exact Nat.le_trans (Expr.depth_toJson_le value he) (Json.depth_le_depthFields hvalue)
  simp only [toJson, Envelope.fields, Json.depth, Json.depthFields] at hinputs ⊢
  omega

end Envelope

/-! ### Replies -/

namespace Reply

/-- The reply with a canonical result. -/
def canonical (reply : Reply) : Reply := { reply with answer := reply.answer.map Expr.canonical }

/-- The fields of a reply. -/
def fields (reply : Reply) : List (String × Json) :=
  [("id", .str reply.id),
   match reply.answer with
   | .ok e => ("result", e.toJson)
   | .error message => ("error", .str message)]

/-- The JSON value of a reply. -/
def toJson (reply : Reply) : Json := .obj reply.fields

/-- Reads a reply. -/
def ofJson? : Json → Option Reply
  | .obj fields =>
    match uniqueField? "id" fields, answer? fields with
    | some (.str id), some answer => some ⟨id, answer⟩
    | _, _ => none
  | _ => none

variable {reply : Reply} {fields : List (String × Json)}

theorem toJson_canonical (reply : Reply) : reply.canonical.toJson = reply.toJson := by
  obtain ⟨id, e | message⟩ := reply
  · rfl
  · simp [toJson, Reply.fields, canonical, Except.map, Expr.toJson_canonical]

/-- A result is read from a field. -/
theorem exists_of_answer? {e : Expr} (h : answer? fields = some (.ok e)) :
    ∃ name value, (name, value) ∈ fields ∧ Expr.ofJson value = .ok e := by
  unfold answer? at h
  split at h
  · next name value hfind =>
    refine ⟨name, value, List.mem_of_find?_eq_some hfind, Expr.ofJson?_eq_some_iff.mp ?_⟩
    split at h
    · rw [Option.map_eq_some_iff] at h
      obtain ⟨_, hread, heq⟩ := h
      cases heq
      exact hread
    · split at h <;> cases h
  · cases h

theorem depth_toJson_le {value : Json} (h : ofJson? value = some reply) :
    reply.toJson.depth ≤ value.depth := by
  unfold ofJson? at h
  split at h
  · next fields =>
    split at h
    · next id answer _ hanswer =>
      cases h
      have hfield : Json.depthFields (Reply.fields ⟨id, answer⟩) ≤ Json.depthFields fields := by
        cases answer with
        | error message => exact Nat.zero_le _
        | ok e =>
          obtain ⟨name, value, hmem, he⟩ := exists_of_answer? hanswer
          have hwritten := Expr.depth_toJson_le value he
          have hinside := Json.depth_le_depthFields hmem
          simp only [Reply.fields, Json.depthFields, Json.depth]
          omega
      exact Nat.succ_le_succ hfield
    · cases h
  · cases h

end Reply

end MathCanvas
