import Stencil.Entries
import Stencil.Number

/-!
# Data

The data that a template is rendered with: nothing, scalars, lists, and maps from keys to data.
-/

namespace Stencil

inductive Value where
  | null
  | bool (b : Bool)
  | number (x : Number)
  | string (s : String)
  | list (items : List Value)
  /-- The entries of a map, by ascending keys. -/
  | map (entries : List (String × Value))
deriving Inhabited

namespace Value

/-- Sets `key` among entries by ascending keys. -/
def insertEntry (key : String) (value : Value) : List (String × Value) → List (String × Value)
  | [] => [(key, value)]
  | (k, v) :: rest =>
    if key = k then (key, value) :: rest
    else if key < k then (key, value) :: (k, v) :: rest
    else (k, v) :: insertEntry key value rest

def ofEntries (entries : List (String × Value)) : Value :=
  .map (entries.foldl (fun es (k, v) => insertEntry k v es) [])

/-- Sets `key`. Whatever is no map becomes an empty one first. -/
def insert (v : Value) (key : String) (value : Value) : Value :=
  match v with
  | map entries => map (insertEntry key value entries)
  | _ => map (insertEntry key value [])

/-- What a map holds under `key`. -/
def get? (v : Value) (key : String) : Option Value :=
  match v with
  | map entries => entries.lookup key
  | _ => none

def ofInt (n : Int) : Value := number (.ofInt n)

def ofStrings (strings : List String) : Value := list (strings.map string)

def ofOption : Option Value → Value
  | some v => v
  | none => null

/-- Booleans, numbers and strings have no parts. -/
def isScalar : Value → Bool
  | bool _ | number _ | string _ => true
  | null | list _ | map _ => false

/-- Whether a block over this value prints its content. -/
def truthy : Value → Bool
  | null => false
  | bool b => b
  | number x => !x.isZero && !x.isNaN
  | string s => !s.isEmpty
  | list items => !items.isEmpty
  | map _ => true

mutual

/-- Equality of data. Numbers are compared as numbers, not by their bits. -/
protected def beq : Value → Value → Bool
  | null, null => true
  | bool a, bool b => a == b
  | number x, number y => x.equals y
  | string s, string t => s == t
  | list as, list bs => Value.beqList as bs
  | map as, map bs => Value.beqEntries as bs
  | _, _ => false

protected def beqList : List Value → List Value → Bool
  | [], [] => true
  | a :: as, b :: bs => a.beq b && Value.beqList as bs
  | _, _ => false

protected def beqEntries : List (String × Value) → List (String × Value) → Bool
  | [], [] => true
  | (k, a) :: as, (l, b) :: bs => k == l && a.beq b && Value.beqEntries as bs
  | _, _ => false

end

instance : BEq Value := ⟨Value.beq⟩

/-! ### Entries of a map -/

theorem lookup_insertEntry (key k : String) (value : Value) (entries : List (String × Value)) :
    (insertEntry key value entries).lookup k =
      if k = key then some value else entries.lookup k := by
  induction entries with
  | nil => rw [insertEntry, Entries.lookup_cons_eq]
  | cons e rest ih =>
    obtain ⟨k', v⟩ := e
    unfold insertEntry
    split
    · subst_vars
      simp only [Entries.lookup_cons_eq]
      split <;> rfl
    · split
      · rw [Entries.lookup_cons_eq]
      · simp only [Entries.lookup_cons_eq, ih]
        grind

theorem get?_insert (v : Value) (key k : String) (value : Value) :
    (v.insert key value).get? k = if k = key then some value else v.get? k := by
  cases v <;> simp [insert, get?, lookup_insertEntry]

end Value

end Stencil
