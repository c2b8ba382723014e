import Wiring.Json.Reader
import Wiring.Table

/-!
# Decoding JSON trees into records

A record of known fields may be written as an object, in any order and among unknown
fields, or as the list of its fields in order. A known field must not be repeated, and
nobody looks at the unknown ones. What an absent field means is up to the field: an
error, nothing, or a default.

A variant is a tag and its content, the fields `type` and `value` of an object or a list
of the two. Where the content comes first it is kept until the tag is known; what is kept
must be readable as a whole, even the parts that nobody looks at later, and its own tags
may be written in a few more ways.
-/
namespace Wiring.Json

/-- What was written for one field of a record. -/
inductive Slot where
  | given (value : Json)
  | absent
  | beyond
  deriving Repr, Inhabited

namespace Slot

def required (slot : Slot) (decode : Json → Option α) : Option α :=
  match slot with
  | given value => decode value
  | absent => none
  | beyond => none

/-- Null and an absent field of an object are nothing; a list must not stop short. -/
def optional (slot : Slot) (decode : Json → Option α) : Option (Option α) :=
  match slot with
  | given null => some none
  | given value => (decode value).map some
  | absent => some none
  | beyond => none

def defaulted (slot : Slot) (decode : Json → Option α) (default : α) : Option α :=
  match slot with
  | given value => decode value
  | absent => some default
  | beyond => some default

end Slot

/-- The values written under a key. -/
def valuesAt (fields : List (String × Json)) (key : String) : List Json :=
  fields.filterMap fun f => if f.1 = key then some f.2 else none

/-- The slots of the named fields of an object, in the order of the names. -/
def fieldSlots (names : List String) : Json → Option (List Slot)
  | record fields =>
      names.mapM fun name =>
        match valuesAt fields name with
        | [] => some .absent
        | [value] => some (.given value)
        | _ => none
  | _ => none

/-- The slots of the named fields, in the order of the names. -/
def slots (names : List String) : Json → Option (List Slot)
  | list items =>
      if names.length < items.length then none
      else some (items.map .given ++ List.replicate (names.length - items.length) .beyond)
  | j => j.fieldSlots names

/-- When a value is decoded: as its text is read, or later, from what was kept. -/
inductive Timing where
  | reading
  | kept
  deriving DecidableEq, Repr, Inhabited

/-- The name in a tag field: a text, or an object of one field holding null. In a kept
value the field may also hold an empty object. -/
def tag (timing : Timing) : Json → Option String
  | text s => some s
  | record [(name, null)] => some name
  | record [(name, record [])] => if timing = .kept then some name else none
  | _ => none

/-- The name at the head of a list: a text. In a kept value it may also be the number of
the variant. -/
def headTag (timing : Timing) (names : List String) : Json → Option String
  | text s => some s
  | int (.ofNat n) => if timing = .kept then names[n]? else none
  | _ => none

/-- A variant by name, with its content and when that is decoded. -/
structure Variant where
  name : String
  content : Slot
  timing : Timing
  deriving Repr, Inhabited

/-- The variant that a value selects among those named, in the order of their numbers. -/
def variant (timing : Timing) (names : List String) : Json → Option Variant
  | record fields =>
      match fields.filter fun f => f.1 == "type" || f.1 == "value" with
      | [("type", type)] => (tag timing type).map (⟨·, .absent, timing⟩)
      | [("type", type), ("value", content)] =>
          (tag timing type).map (⟨·, .given content, timing⟩)
      | [("value", content), ("type", type)] =>
          if content.isWhole then (tag timing type).map (⟨·, .given content, .kept⟩) else none
      | _ => none
  | list [type, content] => (headTag timing names type).map (⟨·, .given content, timing⟩)
  | _ => none

def asText : Json → Option String
  | text s => some s
  | _ => none

def asBool : Json → Option Bool
  | bool b => some b
  | _ => none

def asInt64 : Json → Option Int64
  | int i => int64? i
  | _ => none

/-- Integers are taken for floating point where one is wanted. -/
def asBinary64 : Json → Option Binary64
  | float x => some x
  | int i => some (.ofInt i)
  | _ => none

def asList (decode : Json → Option α) : Json → Option (List α)
  | list items => items.mapM decode
  | _ => none

/-- A field with its value decoded. -/
def decodeField (decode : Json → Option α) (field : String × Json) : Option (String × α) :=
  (decode field.2).map fun a => (field.1, a)

/-- A repeated key keeps its first place and its last value. -/
def asTable (decode : Json → Option α) : Json → Option (Table String α)
  | record fields => (fields.mapM (decodeField decode)).map Table.ofRows
  | _ => none

def ofOption (encode : α → Json) : Option α → Json
  | some a => encode a
  | none => null

def texts (items : List String) : Json := list (items.map text)

end Wiring.Json
