import Mathlib.Data.String.Basic
import Objsds.Foundation.SortedMap

namespace Objsds

open Foundation

structure FiniteFloat where
  bits : UInt64
  finite : (bits >>> 52) &&& 0x7ff ≠ 0x7ff
deriving DecidableEq

-- `negInt n` is the number `-(n + 1)`, as serde_json keeps a negative integer apart.
inductive Number where
  | posInt (n : UInt64)
  | negInt (n : Fin (2 ^ 63))
  | float (f : FiniteFloat)
deriving DecidableEq

inductive Json where
  | null
  | bool (b : Bool)
  | number (n : Number)
  | string (s : String)
  | array (items : List Json)
  | object (members : List (String × Json))

namespace Json

mutual
def depth : Json → ℕ
  | .array items => depthItems items + 1
  | .object members => depthMembers members + 1
  | _ => 0

def depthItems : List Json → ℕ
  | [] => 0
  | j :: js => max j.depth (depthItems js)

def depthMembers : List (String × Json) → ℕ
  | [] => 0
  | (_,j) :: ms => max j.depth (depthMembers ms)
end

theorem depthItems_le {n : ℕ} {items : List Json} :
    depthItems items ≤ n ↔ ∀ j ∈ items, j.depth ≤ n := by
  induction items with
  | nil => simp [depthItems]
  | cons j js ih => simp [depthItems,ih]

theorem depthMembers_le {n : ℕ} {members : List (String × Json)} :
    depthMembers members ≤ n ↔ ∀ p ∈ members, p.2.depth ≤ n := by
  induction members with
  | nil => simp [depthMembers]
  | cons p ms ih =>
      obtain ⟨k,j⟩ := p
      simp [depthMembers,ih]

theorem depth_lt_array {j : Json} {items : List Json} (h : j ∈ items) :
    j.depth + 1 ≤ (Json.array items).depth := by
  rw [depth,Nat.add_le_add_iff_right]
  exact depthItems_le.mp le_rfl j h

theorem depth_lt_object {j : Json} {k : String} {members : List (String × Json)} (h : (k,j) ∈ members) :
    j.depth + 1 ≤ (Json.object members).depth := by
  rw [depth,Nat.add_le_add_iff_right]
  exact depthMembers_le.mp le_rfl (k,j) h

theorem depth_array_le {n : ℕ} {items : List Json} :
    (Json.array items).depth ≤ n + 1 ↔ ∀ j ∈ items, j.depth ≤ n := by
  rw [depth,Nat.add_le_add_iff_right,depthItems_le]

theorem depth_object_le {n : ℕ} {members : List (String × Json)} :
    (Json.object members).depth ≤ n + 1 ↔ ∀ p ∈ members, p.2.depth ≤ n := by
  rw [depth,Nat.add_le_add_iff_right,depthMembers_le]

@[simp] theorem depth_number (n : Number) : (Json.number n).depth = 0 := rfl

@[simp] theorem depth_string (s : String) : (Json.string s).depth = 0 := rfl

@[simp] theorem depth_null : Json.null.depth = 0 := rfl

mutual
def IsValue : Json → Prop
  | .array items => IsValueItems items
  | .object members => Increasing Prod.fst members ∧ IsValueMembers members
  | _ => True

def IsValueItems : List Json → Prop
  | [] => True
  | j :: js => j.IsValue ∧ IsValueItems js

def IsValueMembers : List (String × Json) → Prop
  | [] => True
  | (_,j) :: ms => j.IsValue ∧ IsValueMembers ms
end

mutual
def toValue : Json → Json
  | .array items => .array (toValueItems items)
  | .object members =>
      .object ((toValueMembers members).foldl (fun m p => m.insert p.1 p.2) SortedMap.empty).entries
  | j => j

def toValueItems : List Json → List Json
  | [] => []
  | j :: js => j.toValue :: toValueItems js

def toValueMembers : List (String × Json) → List (String × Json)
  | [] => []
  | (k,j) :: ms => (k,j.toValue) :: toValueMembers ms
end

theorem isValueMembers_iff {members : List (String × Json)} :
    IsValueMembers members ↔ ∀ p ∈ members, p.2.IsValue := by
  induction members with
  | nil => simp [IsValueMembers]
  | cons p ms ih =>
      obtain ⟨k,j⟩ := p
      simp [IsValueMembers,ih]

theorem mem_foldl_insert {V : Type} (xs : List (String × V)) :
    ∀ (m : SortedMap String V) {p : String × V},
      p ∈ (xs.foldl (fun m p => m.insert p.1 p.2) m).entries → p ∈ m.entries ∨ p ∈ xs := by
  induction xs with
  | nil => exact fun m p hp => .inl hp
  | cons x xs ih =>
      intro m p hp
      rcases ih _ hp with h | h
      · rcases SortedMap.mem_insert.mp h with rfl | h
        · exact .inr (List.mem_cons_self ..)
        · exact .inl h.1
      · exact .inr (List.mem_cons_of_mem _ h)

mutual
theorem toValue_isValue : ∀ j : Json, j.toValue.IsValue
  | .null | .bool _ | .number _ | .string _ => trivial
  | .array items => by
      simp only [toValue,IsValue]
      exact toValueItems_isValue items
  | .object members => by
      simp only [toValue,IsValue]
      refine ⟨SortedMap.increasing _,isValueMembers_iff.mpr ?_⟩
      intro p hp
      rcases mem_foldl_insert _ _ hp with h | h
      · simp at h
      · exact isValueMembers_iff.mp (toValueMembers_isValue members) p h

theorem toValueItems_isValue : ∀ js : List Json, IsValueItems (toValueItems js)
  | [] => trivial
  | j :: js => ⟨toValue_isValue j,toValueItems_isValue js⟩

theorem toValueMembers_isValue : ∀ ms : List (String × Json), IsValueMembers (toValueMembers ms)
  | [] => trivial
  | (_,j) :: ms => ⟨toValue_isValue j,toValueMembers_isValue ms⟩
end

mutual
theorem toValue_of_isValue : ∀ j : Json, j.IsValue → j.toValue = j
  | .null, _ | .bool _, _ | .number _, _ | .string _, _ => rfl
  | .array items, h => by
      simp only [IsValue] at h
      rw [toValue,toValueItems_of_isValue items h]
  | .object members, h => by
      simp only [IsValue] at h
      rw [toValue,toValueMembers_of_isValue members h.2,
        SortedMap.foldl_insert_entries members SortedMap.empty h.1]
      rfl

theorem toValueItems_of_isValue : ∀ js : List Json, IsValueItems js → toValueItems js = js
  | [], _ => rfl
  | j :: js, h => by
      rw [toValueItems,toValue_of_isValue j h.1,toValueItems_of_isValue js h.2]

theorem toValueMembers_of_isValue :
    ∀ ms : List (String × Json), IsValueMembers ms → toValueMembers ms = ms
  | [], _ => rfl
  | (k,j) :: ms, h => by
      rw [toValueMembers,toValue_of_isValue j h.1,toValueMembers_of_isValue ms h.2]
end

mutual
theorem toValue_depth_le : ∀ j : Json, j.toValue.depth ≤ j.depth
  | .null | .bool _ | .number _ | .string _ => le_rfl
  | .array items => by
      simp only [toValue,depth]
      exact Nat.add_le_add_right (toValueItems_depth_le items) 1
  | .object members => by
      simp only [toValue,depth]
      refine Nat.add_le_add_right (depthMembers_le.mpr ?_) 1
      intro p hp
      rcases mem_foldl_insert _ _ hp with h | h
      · simp at h
      · exact depthMembers_le.mp (toValueMembers_depth_le members) p h

theorem toValueItems_depth_le : ∀ js : List Json, depthItems (toValueItems js) ≤ depthItems js
  | [] => le_rfl
  | j :: js => by
      simp only [toValueItems,depthItems]
      exact max_le_max (toValue_depth_le j) (toValueItems_depth_le js)

theorem toValueMembers_depth_le :
    ∀ ms : List (String × Json), depthMembers (toValueMembers ms) ≤ depthMembers ms
  | [] => le_rfl
  | (_,j) :: ms => by
      simp only [toValueMembers,depthMembers]
      exact max_le_max (toValue_depth_le j) (toValueMembers_depth_le ms)
end

end Json

structure Value where
  tree : Json
  isValue : tree.IsValue

@[ext] theorem Value.ext {v w : Value} (h : v.tree = w.tree) : v = w := by
  cases v
  cases w
  simp only at h
  subst h
  rfl

def Json.value (j : Json) : Value := ⟨j.toValue,j.toValue_isValue⟩

theorem Value.value_tree (v : Value) : v.tree.value = v :=
  Value.ext (Json.toValue_of_isValue v.tree v.isValue)

def nested : ℕ → Json
  | 0 => .null
  | n + 1 => .array [nested n]

theorem nested_isValue : ∀ n, (nested n).IsValue
  | 0 => trivial
  | n + 1 => ⟨nested_isValue n,trivial⟩

theorem nested_depth (n : ℕ) : (nested n).depth = n := by
  induction n with
  | zero => rfl
  | succ n ih => simp [nested,Json.depth,Json.depthItems,ih]

end Objsds
