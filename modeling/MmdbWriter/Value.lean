import MmdbWriter.Options

/-!
# Values

The data model of the data section. Floats are their bit patterns, by which the source compares and
hashes them, so equality of values is equality of the model's terms. A map is the list of a
`BTreeMap`'s entries, ascending in the keys (`Value.WF`).
-/

namespace MmdbWriter

/-- One data-section value. -/
inductive Value where
  | string (s : String)
  | double (bits : BitVec 64)
  | bytes (b : List UInt8)
  | u16 (n : BitVec 16)
  | u32 (n : BitVec 32)
  | map (m : List (String × Value))
  | i32 (n : BitVec 32)
  | u64 (n : BitVec 64)
  | u128 (n : BitVec 128)
  | array (items : List Value)
  | bool (b : Bool)
  | float (bits : BitVec 32)
deriving Repr

/-- `BTreeMap::insert`: the entry takes the place of one with its key, or goes in by key order. -/
def mapInsert {V : Type} (k : String) (v : V) : List (String × V) → List (String × V)
  | [] => [(k, v)]
  | (k', v') :: m =>
    if k < k' then (k, v) :: (k', v') :: m
    else if k = k' then (k, v) :: m
    else (k', v') :: mapInsert k v m

/-- `BTreeMap::get`. -/
def mapGet {V : Type} (k : String) : List (String × V) → Option V
  | [] => none
  | (k', v') :: m => if k = k' then some v' else mapGet k m

namespace Value

mutual

/-- `Value::eq`: variant by variant, floats by their bits. -/
def eq : Value → Value → Bool
  | string a, string b => a == b
  | double a, double b => a == b
  | bytes a, bytes b => a == b
  | u16 a, u16 b => a == b
  | u32 a, u32 b => a == b
  | map a, map b => eqMap a b
  | i32 a, i32 b => a == b
  | u64 a, u64 b => a == b
  | u128 a, u128 b => a == b
  | array a, array b => eqArray a b
  | bool a, bool b => a == b
  | float a, float b => a == b
  | _, _ => false

def eqArray : List Value → List Value → Bool
  | [], [] => true
  | v :: a, w :: b => eq v w && eqArray a b
  | _, _ => false

def eqMap : List (String × Value) → List (String × Value) → Bool
  | [], [] => true
  | (k, v) :: a, (k', w) :: b => k == k' && eq v w && eqMap a b
  | _, _ => false

end

mutual

theorem eq_iff : ∀ v w : Value, eq v w = true ↔ v = w
  | string _, w => by cases w <;> simp [eq]
  | double _, w => by cases w <;> simp [eq]
  | bytes _, w => by cases w <;> simp [eq]
  | u16 _, w => by cases w <;> simp [eq]
  | u32 _, w => by cases w <;> simp [eq]
  | map m, w => by cases w <;> simp [eq, eqMap_iff m]
  | i32 _, w => by cases w <;> simp [eq]
  | u64 _, w => by cases w <;> simp [eq]
  | u128 _, w => by cases w <;> simp [eq]
  | array a, w => by cases w <;> simp [eq, eqArray_iff a]
  | bool _, w => by cases w <;> simp [eq]
  | float _, w => by cases w <;> simp [eq]

theorem eqArray_iff : ∀ a b : List Value, eqArray a b = true ↔ a = b
  | [], b => by cases b <;> simp [eqArray]
  | v :: a, [] => by simp [eqArray]
  | v :: a, w :: b => by simp [eqArray, eq_iff v w, eqArray_iff a b]

theorem eqMap_iff : ∀ a b : List (String × Value), eqMap a b = true ↔ a = b
  | [], b => by cases b <;> simp [eqMap]
  | (k, v) :: a, [] => by simp [eqMap]
  | (k, v) :: a, (k', w) :: b => by simp [eqMap, eq_iff v w, eqMap_iff a b]

end

instance : DecidableEq Value := fun v w => decidable_of_iff _ (eq_iff v w)

mutual

/-- The value is one the source's type holds: the keys of every map ascend. -/
def WF : Value → Prop
  | map m => (m.map Prod.fst).Pairwise (· < ·) ∧ WFMap m
  | array items => WFArray items
  | _ => True

def WFArray : List Value → Prop
  | [] => True
  | v :: items => WF v ∧ WFArray items

def WFMap : List (String × Value) → Prop
  | [] => True
  | (_, v) :: m => WF v ∧ WFMap m

end

mutual

/-- The value and every value and key in it satisfy `P`. -/
def All (P : Value → Prop) : Value → Prop
  | map m => P (map m) ∧ AllMap P m
  | array items => P (array items) ∧ AllArray P items
  | v => P v

def AllArray (P : Value → Prop) : List Value → Prop
  | [] => True
  | v :: items => All P v ∧ AllArray P items

def AllMap (P : Value → Prop) : List (String × Value) → Prop
  | [] => True
  | (k, v) :: m => P (string k) ∧ All P v ∧ AllMap P m

end

section Decidable

variable (P : Value → Prop) [DecidablePred P]

mutual

def decAll : ∀ v : Value, Decidable (All P v)
  | map m =>
    have := decAllMap m
    inferInstanceAs (Decidable (P (map m) ∧ AllMap P m))
  | array items =>
    have := decAllArray items
    inferInstanceAs (Decidable (P (array items) ∧ AllArray P items))
  | string s => inferInstanceAs (Decidable (P (string s)))
  | double b => inferInstanceAs (Decidable (P (double b)))
  | bytes b => inferInstanceAs (Decidable (P (bytes b)))
  | u16 n => inferInstanceAs (Decidable (P (u16 n)))
  | u32 n => inferInstanceAs (Decidable (P (u32 n)))
  | i32 n => inferInstanceAs (Decidable (P (i32 n)))
  | u64 n => inferInstanceAs (Decidable (P (u64 n)))
  | u128 n => inferInstanceAs (Decidable (P (u128 n)))
  | bool b => inferInstanceAs (Decidable (P (bool b)))
  | float b => inferInstanceAs (Decidable (P (float b)))

def decAllArray : ∀ items : List Value, Decidable (AllArray P items)
  | [] => inferInstanceAs (Decidable True)
  | v :: items =>
    have := decAll v
    have := decAllArray items
    inferInstanceAs (Decidable (All P v ∧ AllArray P items))

def decAllMap : ∀ m : List (String × Value), Decidable (AllMap P m)
  | [] => inferInstanceAs (Decidable True)
  | (k, v) :: m =>
    have := decAll v
    have := decAllMap m
    inferInstanceAs (Decidable (P (string k) ∧ All P v ∧ AllMap P m))

end

instance : DecidablePred (All P) := decAll P

end Decidable

/-- `Value::merge_top_level`. -/
def mergeTopLevel (existing new : Value) : Value :=
  match existing, new with
  | map old, map newMap => map (newMap.foldl (fun merged kv => mapInsert kv.1 kv.2 merged) old)
  | _, _ => new

mutual

/-- `Value::merge_deep`. -/
def mergeDeep (existing : Value) : Value → Value
  | map newMap => match existing with
    | map old => map (mergeMaps old newMap)
    | _ => map newMap
  | array newArr => match existing with
    | array old => array (old ++ newArr)
    | _ => array newArr
  | new => new

/-- The loop of `merge_deep` over the entries of the new map. -/
def mergeMaps (merged : List (String × Value)) : List (String × Value) → List (String × Value)
  | [] => merged
  | (k, v) :: newMap =>
    let combined := match mapGet k merged with
      | some prev => mergeDeep prev v
      | none => v
    mergeMaps (mapInsert k combined merged) newMap

end

end Value

end MmdbWriter
