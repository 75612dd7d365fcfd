import MmdbWriter.Lib.LastWins
import MmdbWriter.Serde

/-!
# The projection of serde's data model

What the section is to hold for a value of serde's data model, said of the value itself: nulls are
left out of what holds them, a variant is tagged with its name, and a map has each key's last value.
Two kinds of value have no projection, integers the format has no type for and maps with a key that
is no text.
-/

namespace MmdbWriter

open LastWins (lastWins)

namespace Data

/-- The value projects to nothing: a null under any newtypes and `Some`s. -/
def isNull : Data → Bool
  | none | unit | unitStruct => true
  | some value | newtypeStruct value => isNull value
  | _ => false

/-- The value projects to a string: a text under any newtypes and `Some`s. -/
def isText : Data → Bool
  | char _ | str _ | unitVariant _ => true
  | some value | newtypeStruct value => isText value
  | _ => false

/-- The name of the variant, for a value of an enum. -/
def variantName : Data → Option String
  | unitVariant variant | newtypeVariant variant _ | tupleVariant variant _
  | structVariant variant _ => .some variant
  | _ => .none

/-- The values directly in a value, map keys among them. -/
def parts : Data → List Data
  | some value | newtypeStruct value | newtypeVariant _ value => [value]
  | seq items | tuple items => items
  | tupleStruct fields | tupleVariant _ fields => fields
  | map entries => entries.flatMap fun e => [e.1, e.2]
  | struct fields | structVariant _ fields => fields.map Prod.snd
  | _ => []

/-- A value anywhere in another, or the other itself. -/
inductive Within (x : Data) : Data → Prop
  | refl : Within x x
  | part {d p : Data} (hp : p ∈ d.parts) (h : Within x p) : Within x d

/-- There is nothing to write for the value whatever is in it. -/
def Unrepresentable : Data → Prop
  | i64 _ | i128 _ => True
  | map entries => ∃ e ∈ entries, e.1.isText = false
  | _ => False

/-- Everything in the value can be written. -/
def Representable (d : Data) : Prop := ∀ x : Data, x.Within d → ¬ x.Unrepresentable

mutual

/-- The value's projection. -/
def project : Data → Option Value
  | bool v => .some (.bool v)
  | i8 v => .some (.i32 (v.signExtend 32))
  | i16 v => .some (.i32 (v.signExtend 32))
  | i32 v => .some (.i32 v)
  | i64 _ => .none
  | i128 _ => .none
  | u8 v => .some (.u16 (v.setWidth 16))
  | u16 v => .some (.u16 v)
  | u32 v => .some (.u32 v)
  | u64 v => .some (.u64 v)
  | u128 v => .some (.u128 v)
  | f32 v => .some (.float v)
  | f64 v => .some (.double v)
  | char v => .some (.string v.toString)
  | str v => .some (.string v)
  | bytes v => .some (.bytes v)
  | none => .none
  | some value => project value
  | unit => .none
  | unitStruct => .none
  | unitVariant variant => .some (.string variant)
  | newtypeStruct value => project value
  | newtypeVariant variant value =>
    .some (.map ((project value).toList.map fun v => (variant, v)))
  | seq items => .some (.array (projectAll items))
  | tuple items => .some (.array (projectAll items))
  | tupleStruct fields => .some (.array (projectAll fields))
  | tupleVariant variant fields => .some (.map [(variant, .array (projectAll fields))])
  | map entries => .some (.map (lastWins (projectEntries entries)))
  | struct fields => .some (.map (lastWins (projectFields fields)))
  | structVariant variant fields =>
    .some (.map [(variant, .map (lastWins (projectFields fields)))])

/-- The projections of the values that have one. -/
def projectAll : List Data → List Value
  | [] => []
  | d :: ds => (project d).toList ++ projectAll ds

/-- The entries whose value has a projection. -/
def projectEntries : List (Data × Data) → List (String × Value)
  | [] => []
  | (key, value) :: es =>
    (match project key, project value with
      | .some (.string k), .some v => [(k, v)]
      | _, _ => []) ++ projectEntries es

/-- The fields whose value has a projection. -/
def projectFields : List (String × Data) → List (String × Value)
  | [] => []
  | (key, value) :: fields => (project value).toList.map (fun v => (key, v)) ++ projectFields fields

end

/-- The externally tagged form of a value of an enum: the variant's name for a unit variant, else a map
with the name for its one key. -/
def Tagged (d : Data) (name : String) (v : Value) : Prop :=
  match d with
  | unitVariant _ => v = .string name
  | _ => ∃ payload, v = .map [(name, payload)]

/-- A newtype variant around a null. -/
def LosesTag (d : Data) : Prop :=
  ∃ variant value, d = newtypeVariant variant value ∧ value.isNull = true

/-- The tag is kept: if the value is serialized its form is tagged, and no variant of another name is
serialized to the same. -/
structure KeepsTag (d : Data) (name : String) : Prop where
  tagged : ∀ out, ValueSerializer.serialize d = .ok out → ∃ v, out = .some v ∧ d.Tagged name v
  apart : ∀ out, ValueSerializer.serialize d = .ok out → ∀ (d' : Data) (name' : String),
    d'.variantName = .some name' → name' ≠ name → ValueSerializer.serialize d' ≠ .ok out

theorem projectAll_eq_filterMap (ds : List Data) : projectAll ds = ds.filterMap project := by
  induction ds with
  | nil => rfl
  | cons d ds ih =>
    rw [projectAll, ih, List.filterMap_cons]
    cases project d <;> rfl

theorem projectFields_eq_filterMap (fields : List (String × Data)) : projectFields fields =
    fields.filterMap fun f => f.2.project.map fun v => (f.1, v) := by
  induction fields with
  | nil => rfl
  | cons f fields ih =>
    rw [projectFields, ih, List.filterMap_cons]
    cases f.2.project <;> rfl

theorem representable_iff {d : Data} :
    d.Representable ↔ ¬ d.Unrepresentable ∧ ∀ p ∈ d.parts, p.Representable := by
  constructor
  · exact fun h => ⟨h d .refl, fun p hp x hx => h x (.part hp hx)⟩
  · rintro ⟨hd, hparts⟩ x hx
    cases hx with
    | refl => exact hd
    | part hp hx => exact hparts _ hp x hx

end Data

end MmdbWriter
