import Mantle.Db.Restore

/-!
# Mantle.Events.Redact — the feed carries descriptors, never bodies (`redact_content`)

Redaction first asks whether there is anything to remove; a payload that seems to carry no body is passed on as it is.
-/

namespace Mantle.Bus

variable {ctx doc e p payload : List (Key × Val)} {k : String} {v : Val}

/-! ### Dictionaries -/

/-- `d.get(k)`, when the key is there. -/
def itemAt? (d : List (Key × Val)) (k : String) : Option Val := (d.find? fun e => e.1 = .str k).map Prod.snd

/-- `k in d`. -/
def hasKey (d : List (Key × Val)) (k : String) : Bool := (itemAt? d k).isSome

def feedBodyFields : List String := ["content", "content_encrypted"]

def sealedDocFields : List String := ["name", "description"]

section Redaction

variable (float : String → Flt)

end Redaction

/-! ### Bare entries -/

section Bare

variable (float : String → Flt)

def contextKeys (doc : List (Key × Val)) : List Key :=
  match itemAt? doc "context" with
  | some (.dict ctx) => ctx.map Prod.fst
  | some (.str s) =>
    match Json.loads float s with
    | some (.dict ctx) => ctx.map Prod.fst
    | _ => []
  | _ => []

/-- An entry without a body, without the sealed fields, and with a structural context only. -/
structure Bare (e : List (Key × Val)) : Prop where
  fields : ∀ k ∈ feedBodyFields ++ sealedDocFields, hasKey e k = false
  context : ∀ k ∈ contextKeys float e, k ∈ structuralContextKeys.map Key.str

end Bare

section Laws

variable {float : String → Flt}

/-- A mapping, or a mapping in a list: what stands under `artifact` or `artifacts`. -/
inductive Carried : Val → List (Key × Val) → Prop
  | dict (e : List (Key × Val)) : Carried (.dict e) e
  | list {x : Val} {xs : List Val} {e : List (Key × Val)} : x ∈ xs → Carried x e → Carried (.list xs) e
  | tuple {x : Val} {xs : List Val} {e : List (Key × Val)} : x ∈ xs → Carried x e → Carried (.tuple xs) e

def Under (payload e : List (Key × Val)) : Prop :=
  ∃ k ∈ ["artifact", "artifacts"], ∃ v, itemAt? payload k = some v ∧ Carried v e

inductive Entry : List (Key × Val) → List (Key × Val) → Prop
  | under {p e : List (Key × Val)} : Under p e → Entry p e
  | deeper {p e e' : List (Key × Val)} : Under p e' → Entry e' e → Entry p e

/-- An entry that stands where redaction does not look. -/
def Beside (payload e : List (Key × Val)) : Prop :=
  (∃ v, itemAt? payload "artifact" = some v ∧ (∀ a, v ≠ .dict a) ∧ Carried v e) ∨
  (∃ a, itemAt? payload "artifacts" = some (.dict a) ∧ e = a) ∨
  ∃ xs, (itemAt? payload "artifacts" = some (.list xs) ∨ itemAt? payload "artifacts" = some (.tuple xs)) ∧
    ∃ x ∈ xs, (∀ a, x ≠ .dict a) ∧ Carried x e

end Laws

end Mantle.Bus
