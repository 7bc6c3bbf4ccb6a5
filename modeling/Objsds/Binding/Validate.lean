import Mathlib.Data.Fintype.Card
import Objsds.Foundation.Descent

namespace Objsds

open Foundation Relation

namespace Binding

-- An IEEE 754 binary64 by its bits.
structure JsNumber where
  bits : BitVec 64
deriving DecidableEq

def JsNumber.isFinite (x : JsNumber) : Bool := x.bits.extractLsb' 52 11 ≠ 0x7ff#11

-- A value of a heap of `n` objects; symbols and big integers by what tells them apart.
inductive JsValue (n : ℕ) where
  | undefined
  | null
  | boolean (value : Bool)
  | number (value : JsNumber)
  | bigint (value : ℤ)
  | string (value : String)
  | symbol (id : ℕ)
  | object (ref : Fin n)
deriving DecidableEq

inductive Prototype where
  | objectPrototype
  | null
  | other
deriving DecidableEq

-- The elements of an array as they are read, a hole as `undefined`; of any other object what
-- `Object.values` lists.
inductive JsObject (n : ℕ) where
  | array (elements : List (JsValue n))
  | plain (prototype : Prototype) (values : List (JsValue n))
  | function (values : List (JsValue n))

abbrev JsHeap (n : ℕ) := Fin n → JsObject n

inductive JsType where
  | undefined
  | object
  | boolean
  | number
  | bigint
  | string
  | symbol
  | function
deriving DecidableEq

def JsType.text : JsType → String
  | .undefined => "undefined"
  | .object => "object"
  | .boolean => "boolean"
  | .number => "number"
  | .bigint => "bigint"
  | .string => "string"
  | .symbol => "symbol"
  | .function => "function"

structure TypeError where
  message : String
deriving DecidableEq

variable {n : ℕ}

def typeOf (heap : JsHeap n) : JsValue n → JsType
  | .undefined => .undefined
  | .null => .object
  | .boolean _ => .boolean
  | .number _ => .number
  | .bigint _ => .bigint
  | .string _ => .string
  | .symbol _ => .symbol
  | .object ref =>
      match heap ref with
      | .function _ => .function
      | _ => .object

def JsObject.children : JsObject n → List (JsValue n)
  | .array elements => elements
  | .plain _ values => values
  | .function values => values

def JsObject.classInstance : JsObject n → Bool
  | .plain .other _ => true
  | _ => false

abbrev Ancestors (n : ℕ) := Finset (Fin n)

abbrev Validation (n : ℕ) := Option (Except TypeError (Ancestors n))

def validateChildren (visit : JsValue n → Ancestors n → Validation n) :
    List (JsValue n) → Ancestors n → Validation n
  | [], ancestors => some (.ok ancestors)
  | child :: rest, ancestors =>
      match visit child ancestors with
      | some (.ok ancestors) => validateChildren visit rest ancestors
      | stopped => stopped

-- `ancestors` is the set as the call leaves it; `none` is a recursion deeper than `fuel`.
def validateJson (heap : JsHeap n) : ℕ → JsValue n → Ancestors n → Validation n
  | 0, _, _ => none
  | fuel + 1, value, ancestors =>
      match value with
      | .null => some (.ok ancestors)
      | .string _ => some (.ok ancestors)
      | .boolean _ => some (.ok ancestors)
      | .number x =>
          if x.isFinite then some (.ok ancestors)
          else some (.error ⟨"JSON numbers must be finite"⟩)
      | .object ref =>
          if typeOf heap value ≠ .object then
            some (.error ⟨(typeOf heap value).text ++ " is not a JSON value"⟩)
          else if ref ∈ ancestors then some (.error ⟨"cyclic objects are not JSON values"⟩)
          else if (heap ref).classInstance then
            some (.error ⟨"class instances are not JSON values"⟩)
          else match validateChildren (validateJson heap fuel) (heap ref).children
              (insert ref ancestors) with
            | some (.ok ancestors) => some (.ok (ancestors.erase ref))
            | stopped => stopped
      | _ => some (.error ⟨(typeOf heap value).text ++ " is not a JSON value"⟩)

-- One step down: to an array element or to the value of an enumerable property.
def Child (heap : JsHeap n) (value child : JsValue n) : Prop :=
  ∃ ref, value = .object ref ∧ child ∈ (heap ref).children

-- What a JSON tree may hold at any one place.
def Acceptable (heap : JsHeap n) : JsValue n → Prop
  | .null => True
  | .boolean _ => True
  | .string _ => True
  | .number x => x.isFinite = true
  | .object ref => match heap ref with
    | .array _ => True
    | .plain .objectPrototype _ => True
    | .plain .null _ => True
    | _ => False
  | _ => False

section Decision

variable {heap : JsHeap n} {fuel : ℕ} {ancestors : Ancestors n} {value : JsValue n}

def OnPath (ancestors : Ancestors n) (value : JsValue n) : Prop :=
  ∃ ref ∈ ancestors, value = .object ref

abbrev Admissible (heap : JsHeap n) (ancestors : Ancestors n) (value : JsValue n) : Prop :=
  Clean (Child heap) (Acceptable heap) (OnPath ancestors) value

-- A check that gives the set back as it was, or fails, and does the one or the other by `good`.
structure Decides (good : Prop) (ancestors : Ancestors n) (result : Validation n) : Prop where
  accepts : good → result = some (.ok ancestors)
  rejects : ¬ good → ∃ e, result = some (.error e)

theorem Decides.congr {good good' : Prop} {result : Validation n}
    (h : Decides good ancestors result) (hg : good' ↔ good) : Decides good' ancestors result :=
  ⟨fun hx => h.accepts (hg.mp hx),fun hx => h.rejects (fun hy => hx (hg.mpr hy))⟩

theorem decides_children {visit : JsValue n → Ancestors n → Validation n}
    {good : JsValue n → Prop} {children : List (JsValue n)}
    (h : ∀ child ∈ children, Decides (good child) ancestors (visit child ancestors)) :
    Decides (∀ child ∈ children, good child) ancestors
      (validateChildren visit children ancestors) := by
  induction children with
  | nil => exact ⟨fun _ => rfl,fun hx => absurd (by simp) hx⟩
  | cons child rest ih =>
      have hchild := h child (by simp)
      have hrest := ih (fun c hc => h c (by simp [hc]))
      rw [validateChildren]
      by_cases hg : good child
      · rw [hchild.accepts hg]
        exact hrest.congr (by simp [hg])
      · obtain ⟨e,he⟩ := hchild.rejects hg
        rw [he]
        exact ⟨fun hx => absurd (hx child (by simp)) hg,fun _ => ⟨e,rfl⟩⟩

theorem admissible_leaf (hleaf : ∀ ref, value ≠ .object ref) :
    Admissible heap ancestors value ↔ Acceptable heap value := by
  rw [Admissible,clean_iff]
  constructor
  · exact fun h => h.1
  · intro h
    refine ⟨h,?_,?_⟩
    · rintro ⟨ref,-,he⟩
      exact hleaf ref he
    · rintro c ⟨ref,he,-⟩
      exact absurd he (hleaf ref)

theorem admissible_object {ref : Fin n} :
    Admissible heap ancestors (.object ref) ↔ Acceptable heap (.object ref) ∧ ref ∉ ancestors ∧
      ∀ child ∈ (heap ref).children, Admissible heap (insert ref ancestors) child := by
  have hpath : (fun w => w = JsValue.object ref ∨ OnPath ancestors w) =
      OnPath (insert ref ancestors) := by
    funext w
    simp only [OnPath,Finset.mem_insert,eq_iff_iff]
    constructor
    · rintro (rfl | ⟨r,hr,rfl⟩)
      · exact ⟨ref,.inl rfl,rfl⟩
      · exact ⟨r,.inr hr,rfl⟩
    · rintro ⟨r,rfl | hr,rfl⟩
      · exact .inl rfl
      · exact .inr ⟨r,hr,rfl⟩
  rw [Admissible,clean_iff,hpath]
  refine and_congr_right (fun _ => and_congr ?_ ?_)
  · simp [OnPath]
  · constructor
    · exact fun h c hc => h c ⟨ref,rfl,hc⟩
    · rintro h c ⟨r,hr,hc⟩
      obtain rfl := JsValue.object.inj hr
      exact h c hc

theorem acceptable_object {ref : Fin n} : Acceptable heap (.object ref) ↔
    typeOf heap (.object ref) = .object ∧ (heap ref).classInstance = false := by
  simp only [Acceptable,typeOf]
  cases heap ref with
  | array elements => simp [JsObject.classInstance]
  | function values => simp
  | plain prototype values => cases prototype <;> simp [JsObject.classInstance]

theorem decides_ok {good : Prop} (h : good) (ancestors : Ancestors n) :
    Decides good ancestors (some (.ok ancestors)) :=
  ⟨fun _ => rfl,fun hx => absurd h hx⟩

theorem decides_error {good : Prop} (h : ¬ good) (ancestors : Ancestors n) (e : TypeError) :
    Decides good ancestors (some (.error e)) :=
  ⟨fun hx => absurd hx h,fun _ => ⟨e,rfl⟩⟩

-- The recursion is on `fuel`; an object not yet on the path leaves fewer to go into.
theorem validateJson_decides (hfuel : n < fuel + ancestors.card) :
    Decides (Admissible heap ancestors value) ancestors (validateJson heap fuel value ancestors) := by
  induction fuel generalizing value ancestors with
  | zero =>
      have := card_finset_fin_le ancestors
      omega
  | succ fuel ih =>
      have leaf : (∀ ref, value ≠ .object ref) →
          Decides (Acceptable heap value) ancestors (validateJson heap (fuel + 1) value ancestors) := by
        intro hleaf
        cases value with
        | object ref => exact absurd rfl (hleaf ref)
        | number x =>
            rw [validateJson]
            cases hx : x.isFinite with
            | true => exact decides_ok hx ancestors
            | false => exact decides_error (by simp [Acceptable,hx]) ancestors _
        | null | boolean | string => exact decides_ok trivial ancestors
        | undefined | bigint | symbol => exact decides_error (fun h => h) ancestors _
      cases value with
      | object ref =>
          refine Decides.congr ?_ admissible_object
          rw [validateJson]
          by_cases htype : typeOf heap (.object ref) = .object
          · rw [if_neg (not_not.mpr htype)]
            by_cases hmem : ref ∈ ancestors
            · rw [if_pos hmem]
              exact decides_error (fun h => h.2.1 hmem) ancestors _
            · rw [if_neg hmem]
              cases hclass : (heap ref).classInstance with
              | true =>
                  refine decides_error (fun h => ?_) ancestors _
                  rw [(acceptable_object.mp h.1).2] at hclass
                  simp at hclass
              | false =>
                  have hcard : (insert ref ancestors).card = ancestors.card + 1 :=
                    Finset.card_insert_of_notMem hmem
                  have hall := @decides_children n (insert ref ancestors) (validateJson heap fuel) _
                    (heap ref).children (fun child _ => ih (by omega))
                  have hback : (insert ref ancestors).erase ref = ancestors :=
                    Finset.erase_insert hmem
                  have hok := acceptable_object.mpr ⟨htype,hclass⟩
                  rw [if_neg (by simp)]
                  by_cases hgood : ∀ child ∈ (heap ref).children,
                      Admissible heap (insert ref ancestors) child
                  · rw [hall.accepts hgood]
                    dsimp only
                    rw [hback]
                    exact decides_ok ⟨hok,hmem,hgood⟩ ancestors
                  · obtain ⟨e,he⟩ := hall.rejects hgood
                    rw [he]
                    exact decides_error (fun h => hgood h.2.2) ancestors e
          · rw [if_pos htype]
            exact decides_error (fun h => htype (acceptable_object.mp h.1).1) ancestors _
      | undefined | null | boolean | number | bigint | string | symbol =>
          exact (leaf (by simp)).congr (admissible_leaf (by simp))

theorem validateChildren_mono {visit visit' : JsValue n → Ancestors n → Validation n}
    (h : ∀ v a r, visit v a = some r → visit' v a = some r) {children : List (JsValue n)}
    {result : Except TypeError (Ancestors n)}
    (hr : validateChildren visit children ancestors = some result) :
    validateChildren visit' children ancestors = some result := by
  induction children generalizing ancestors with
  | nil => exact hr
  | cons child rest ih =>
      rw [validateChildren] at hr ⊢
      cases hv : visit child ancestors with
      | none => simp [hv] at hr
      | some r =>
          rw [h child ancestors r hv]
          rw [hv] at hr
          cases r with
          | ok a => exact ih hr
          | error e => exact hr

theorem validateJson_succ {result : Except TypeError (Ancestors n)}
    (h : validateJson heap fuel value ancestors = some result) :
    validateJson heap (fuel + 1) value ancestors = some result := by
  induction fuel generalizing value ancestors result with
  | zero => simp [validateJson] at h
  | succ fuel ih =>
      cases value with
      | object ref =>
          rw [validateJson] at h ⊢
          by_cases htype : typeOf heap (.object ref) ≠ .object
          · rwa [if_pos htype] at h ⊢
          · rw [if_neg htype] at h ⊢
            by_cases hmem : ref ∈ ancestors
            · rwa [if_pos hmem] at h ⊢
            · rw [if_neg hmem] at h ⊢
              by_cases hclass : (heap ref).classInstance = true
              · rwa [if_pos hclass] at h ⊢
              · rw [if_neg hclass] at h ⊢
                cases hc : validateChildren (validateJson heap fuel) (heap ref).children
                    (insert ref ancestors) with
                | none => simp [hc] at h
                | some r =>
                    rw [validateChildren_mono (fun _ _ _ => ih) hc]
                    rwa [hc] at h
      | undefined | null | boolean | number | bigint | string | symbol => exact h

theorem validateJson_mono {fuel' : ℕ} {result : Except TypeError (Ancestors n)} (hle : fuel ≤ fuel')
    (h : validateJson heap fuel value ancestors = some result) :
    validateJson heap fuel' value ancestors = some result := by
  induction hle with
  | refl => exact h
  | step _ ih => exact validateJson_succ ih

theorem validateJson_decides_trees (heap : JsHeap n) (value : JsValue n) :
    ∃ fuel₀ result, (∀ fuel, fuel₀ ≤ fuel → validateJson heap fuel value ∅ = some result) ∧
      ((∃ ancestors, result = .ok ancestors) ↔
        (¬ ∃ w, ReflTransGen (Child heap) value w ∧ TransGen (Child heap) w w) ∧
        ∀ w, ReflTransGen (Child heap) value w → Acceptable heap w) := by
  have hdecides : Decides (Admissible heap ∅ value) ∅ (validateJson heap (n + 1) value ∅) :=
    validateJson_decides (by rw [Finset.card_empty]; omega)
  have hgood : Admissible heap ∅ value ↔
      (¬ ∃ w, ReflTransGen (Child heap) value w ∧ TransGen (Child heap) w w) ∧
        ∀ w, ReflTransGen (Child heap) value w → Acceptable heap w := by
    constructor
    · intro h
      exact ⟨fun ⟨w,hw,hc⟩ => h.acyclic w hw hc,h.accepted⟩
    · rintro ⟨hc,ha⟩
      exact ⟨ha,fun w hw hx => hc ⟨w,hw,hx⟩,fun w ⟨ref,hr,_⟩ => absurd hr (by simp)⟩
  rw [← hgood]
  by_cases hg : Admissible heap ∅ value
  · exact ⟨n + 1,.ok ∅,fun fuel hle => validateJson_mono hle (hdecides.accepts hg),
      fun _ => hg,fun _ => ⟨∅,rfl⟩⟩
  · obtain ⟨e,he⟩ := hdecides.rejects hg
    exact ⟨n + 1,.error e,fun fuel hle => validateJson_mono hle he,by simp,
      fun hx => absurd hx hg⟩

example : validateJson (fun ref => if ref = 0 then .array [.object 1,.object 1] else .plain .null [])
    3 (.object (0 : Fin 2)) ∅ = some (.ok ∅) := by decide

end Decision

end Binding

end Objsds
