import SearchPlusPlus.Base.Float
import SearchPlusPlus.Lib.SortedMap

/-!
# JSON values

`JsonValue`: null, booleans, 64-bit integers, doubles, byte strings, arrays, and objects. A
`JsonObject` is a `std::map`, so its members come in key order; inside the inductive type it is a
plain list, and `JsonValue.WellFormed` says the order holds at every level.
-/

namespace Spp.Json

/-- `JsonValue`. -/
inductive JsonValue where
  | null
  | bool (b : Bool)
  | int (i : Int64)
  | double (d : F64)
  | string (s : Bytes)
  | array (a : List JsonValue)
  | object (o : List (Bytes × JsonValue))

/-- `JsonArray`. -/
abbrev JsonArray := List JsonValue

/-- `JsonObject`: a `std::map` from keys to values. -/
abbrev JsonObject := List (Bytes × JsonValue)

/-- An object from assignments `o[key] = value`, in order. -/
def mkObject (assignments : List (Bytes × JsonValue)) : JsonValue :=
  .object (assignments.foldl (fun o p ↦ Assoc.insert p.1 p.2 o) [])

namespace JsonValue

/-- `is_number`. -/
def isNumber : JsonValue → Bool
  | int _ | double _ => true
  | _ => false

/-- `as_double`, on numbers. -/
def asDouble : JsonValue → F64
  | int i => F64.ofInt64 i
  | double d => d
  | _ => ⟨0⟩

/-- `find`: the member of an object under a key. -/
def find (v : JsonValue) (key : Bytes) : Option JsonValue :=
  match v with
  | object o => Assoc.find? key o
  | _ => none

/-- The member under `key` when it is a string, as `find` followed by `is_string` tests it. -/
def findString (v : JsonValue) (key : Bytes) : Option Bytes :=
  match v.find key with
  | some (string s) => some s
  | _ => none

/-- The member under `key` when it is a boolean. -/
def findBool (v : JsonValue) (key : Bytes) : Option Bool :=
  match v.find key with
  | some (bool b) => some b
  | _ => none

/-- The member under `key` when it is a number, as a double. -/
def findNumber (v : JsonValue) (key : Bytes) : Option F64 :=
  match v.find key with
  | some n => if n.isNumber then some n.asDouble else none
  | none => none

/-- The member under `key` when it is an integer. -/
def findInt (v : JsonValue) (key : Bytes) : Option Int64 :=
  match v.find key with
  | some (int i) => some i
  | _ => none

mutual
/-- Every object below has strictly increasing keys, as a `std::map` does. -/
def WellFormed : JsonValue → Prop
  | array a => WellFormedElems a
  | object o => Assoc.Sorted o ∧ WellFormedMembers o
  | _ => True

/-- Every element is well formed. -/
def WellFormedElems : List JsonValue → Prop
  | [] => True
  | v :: vs => WellFormed v ∧ WellFormedElems vs

/-- Every member value is well formed. -/
def WellFormedMembers : List (Bytes × JsonValue) → Prop
  | [] => True
  | (_, v) :: o => WellFormed v ∧ WellFormedMembers o
end

theorem wellFormedMembers_insert {k : Bytes} {v : JsonValue} (hv : v.WellFormed) :
    ∀ {o : List (Bytes × JsonValue)}, WellFormedMembers o →
      WellFormedMembers (Assoc.insert k v o)
  | [], _ => ⟨hv, trivial⟩
  | (k', v') :: o, h => by
    rw [Assoc.insert]
    split_ifs
    · exact ⟨hv, h⟩
    · exact ⟨hv, h.2⟩
    · exact ⟨h.1, wellFormedMembers_insert hv h.2⟩

/-- Assigning well-formed members makes a well-formed object. -/
theorem wellFormed_mkObject {l : List (Bytes × JsonValue)} (h : ∀ p ∈ l, p.2.WellFormed) :
    (mkObject l).WellFormed := by
  have hfold : ∀ (l : List (Bytes × JsonValue)) (o : JsonObject), (∀ p ∈ l, p.2.WellFormed) →
      Assoc.Sorted o → WellFormedMembers o →
      (object (l.foldl (fun o p ↦ Assoc.insert p.1 p.2 o) o)).WellFormed := by
    intro l
    induction l with
    | nil => exact fun o _ hs hw ↦ ⟨hs, hw⟩
    | cons p l ih =>
      intro o hl hs hw
      exact ih _ (fun q hq ↦ hl q (List.mem_cons_of_mem _ hq)) (hs.insert _ _)
        (wellFormedMembers_insert (hl p List.mem_cons_self) hw)
  exact hfold l [] h Assoc.sorted_nil trivial

end JsonValue

end Spp.Json
