import Objsds.Core.Lifecycle

namespace Objsds

open Foundation

structure Header where
  formatVersion : UInt32
  kind : String
  schema : String
deriving DecidableEq

namespace Header

def fields (h : Header) : List (String × Json) :=
  [("format_version",.ofU32 h.formatVersion),("kind",.string h.kind),("schema",.string h.schema)]

def document (h : Header) (name : String) (payload : Json) : Json :=
  .object (h.fields ++ [(name,payload)])

def deserialize (j : Json) : Except JsonError Header := do
  let formatVersion ← (← j.field 4 0 "format_version") |> Json.required Json.u32
  let kind ← (← j.field 4 1 "kind") |> Json.required Json.text
  let schema ← (← j.field 4 2 "schema") |> Json.required Json.text
  return ⟨formatVersion,kind,schema⟩

def payload {α : Type} (name : String) (f : Json → Except JsonError α) (j : Json) :
    Except JsonError α := do
  (← j.field 4 3 name) |> Json.required f

theorem deserialize_document (h : Header) {name : String} (payload : Json)
    (hf : name ≠ "format_version") (hk : name ≠ "kind") (hs : name ≠ "schema") :
    deserialize (h.document name payload) = .ok h := by
  simp [deserialize,document,fields,Json.field,hf,hk,hs,bind,Except.bind,pure,Except.pure,
    Json.required]

theorem payload_document {α : Type} (h : Header) {name : String} (j : Json)
    (f : Json → Except JsonError α)
    (hf : name ≠ "format_version") (hk : name ≠ "kind") (hs : name ≠ "schema") :
    payload name f (h.document name j) = f j := by
  simp [payload,document,fields,Json.field,hf.symm,hk.symm,hs.symm,bind,Except.bind,
    Json.required]

theorem depth_document (h : Header) (name : String) (payload : Json) :
    (h.document name payload).depth = payload.depth + 1 := by
  simp [document,fields,Json.depth,Json.depthMembers]

theorem sequence_reads {α : Type} (h : Header) (name : String) (xs : List α)
    {f : α → Except JsonError Json} {g : Json → Except JsonError α} {P : Json → Prop}
    (hf : name ≠ "format_version") (hk : name ≠ "kind") (hs : name ≠ "schema")
    (hrt : ∀ x ∈ xs, ∃ j, f x = .ok j ∧ P j ∧ g j = .ok x) :
    ∃ items, xs.mapM f = .ok items ∧ (∀ j ∈ items, P j) ∧
      deserialize (h.document name (.array items)) = .ok h ∧
      payload name (Json.sequence g) (h.document name (.array items)) = .ok xs := by
  obtain ⟨items,hi,hp,hm⟩ := mapM_roundTrip hrt
  exact ⟨items,hi,hp,deserialize_document h _ hf hk hs,
    (payload_document h _ _ hf hk hs).trans hm⟩

theorem sequence_roundTrip {α : Type} (serde : Serde) (h : Header) (name : String) (xs : List α)
    {f : α → Except JsonError Json} {g : Json → Except JsonError α}
    (hf : name ≠ "format_version") (hk : name ≠ "kind") (hs : name ≠ "schema")
    (hrt : ∀ x ∈ xs, ∃ j, f x = .ok j ∧ j.depth + 2 ≤ recursionLimit ∧ g j = .ok x) :
    ∃ items, xs.mapM f = .ok items ∧
      serde.fromSlice (serde.toVec (h.document name (.array items))) =
        .ok (h.document name (.array items)) ∧
      deserialize (h.document name (.array items)) = .ok h ∧
      payload name (Json.sequence g) (h.document name (.array items)) = .ok xs := by
  obtain ⟨items,hi,hd,hh,hm⟩ := h.sequence_reads name xs hf hk hs hrt
  have hdepth : (h.document name (.array items)).depth ≤ recursionLimit := by
    rw [depth_document]
    have : (Json.array items).depth ≤ 125 + 1 :=
      Json.depth_array_le.mpr (fun j hj => Nat.le_of_add_le_add_right (hd j hj))
    exact Nat.add_le_add_right this 1
  exact ⟨items,hi,serde.fromSlice_toVec hdepth,hh,hm⟩

end Header

end Objsds
