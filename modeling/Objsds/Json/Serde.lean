import Objsds.Foundation.Results
import Objsds.Json.Tree
import Objsds.Store.Interface

namespace Objsds

open Foundation

inductive JsonError where
  | malformed
  | data
deriving DecidableEq

def recursionLimit : ℕ := 127

structure Serde where
  toText : Json → String
  fromText : String → Except JsonError Json
  uuidText : Uuid → String
  parseUuid : String → Option Uuid
  fromText_toText : ∀ j : Json, j.depth ≤ recursionLimit → fromText (toText j) = .ok j
  fromText_deep : ∀ j : Json, recursionLimit < j.depth → ∃ e, fromText (toText j) = .error e
  fromText_depth : ∀ {t : String} {j : Json}, fromText t = .ok j → j.depth ≤ recursionLimit
  parseUuid_uuidText : ∀ id : Uuid, parseUuid (uuidText id) = some id

structure Codec (V : Type) where
  serialize : V → Except JsonError Json
  deserialize : Json → Except JsonError V
  missing : Option V

def Codec.ReadsBack {V : Type} (codec : Codec V) (levels : ℕ) (v : V) : Prop :=
  ∃ j : Json, codec.serialize v = .ok j ∧ j.depth + levels ≤ recursionLimit ∧
    codec.deserialize j = .ok v

def Codec.RoundTrips {V : Type} (codec : Codec V) (levels : ℕ) : Prop :=
  ∀ v : V, codec.ReadsBack levels v

def Codec.Faithful {V : Type} (codec : Codec V) : Prop :=
  ∀ v : V, ∃ j, codec.serialize v = .ok j ∧ codec.deserialize j = .ok v

def Codec.Fits {V : Type} (codec : Codec V) (levels : ℕ) (v : V) : Prop :=
  ∀ j, codec.serialize v = .ok j → j.depth + levels ≤ recursionLimit

theorem Codec.Faithful.readsBack_iff {V : Type} {codec : Codec V} (h : codec.Faithful) {levels : ℕ}
    {v : V} : codec.ReadsBack levels v ↔ codec.Fits levels v := by
  constructor
  · rintro ⟨j,hj,hd,-⟩ j' hj'
    rwa [← Except.ok.inj (hj.symm.trans hj')]
  · intro hfits
    obtain ⟨j,hj,hv⟩ := h v
    exact ⟨j,hj,hfits j hj,hv⟩

def valueCodec : Codec Value := ⟨fun v => .ok v.tree,fun j => .ok j.value,none⟩

theorem valueCodec_faithful : valueCodec.Faithful :=
  fun v => ⟨v.tree,rfl,congrArg _ v.value_tree⟩

namespace Serde

def toVec (serde : Serde) (j : Json) : Bytes := (serde.toText j).toUTF8.data.toList

def fromSlice (serde : Serde) (bytes : Bytes) : Except JsonError Json :=
  match String.fromUTF8? ⟨bytes.toArray⟩ with
  | none => .error .malformed
  | some text => serde.fromText text

theorem fromSlice_toVec_eq (serde : Serde) (j : Json) :
    serde.fromSlice (serde.toVec j) = serde.fromText (serde.toText j) := by
  have hb : (⟨(serde.toVec j).toArray⟩ : ByteArray) = (serde.toText j).toByteArray := by
    simp [toVec]
  have h : String.fromUTF8? (serde.toText j).toByteArray = some (serde.toText j) := by
    unfold String.fromUTF8?
    rw [dif_pos (serde.toText j).isValidUTF8]
    rfl
  simp [fromSlice,hb,h]

theorem fromSlice_toVec (serde : Serde) {j : Json} (h : j.depth ≤ recursionLimit) :
    serde.fromSlice (serde.toVec j) = .ok j := by
  rw [fromSlice_toVec_eq,serde.fromText_toText j h]

theorem fromSlice_toVec_inv (serde : Serde) {j j' : Json}
    (h : serde.fromSlice (serde.toVec j) = .ok j') : j' = j ∧ j.depth ≤ recursionLimit := by
  rw [fromSlice_toVec_eq] at h
  rcases Nat.lt_or_ge recursionLimit j.depth with hlt | hle
  · obtain ⟨e,he⟩ := serde.fromText_deep j hlt
    simp [he] at h
  · rw [serde.fromText_toText j hle] at h
    exact ⟨(Except.ok.inj h).symm,hle⟩

theorem fromSlice_depth (serde : Serde) {b : Bytes} {j : Json} (h : serde.fromSlice b = .ok j) :
    j.depth ≤ recursionLimit := by
  unfold fromSlice at h
  split at h
  · simp at h
  · exact serde.fromText_depth h

end Serde

namespace Json

def field (arity index : ℕ) (name : String) : Json → Except JsonError (Option Json)
  | .object members =>
      match members.filter (·.1 = name) with
      | [] => .ok none
      | [(_,j)] => .ok (some j)
      | _ => .error .data
  | .array items => if items.length = arity then .ok items[index]? else .error .data
  | _ => .error .data

def required {α : Type} (f : Json → Except JsonError α) : Option Json → Except JsonError α
  | some j => f j
  | none => .error .data

def optional {α : Type} (f : Json → Except JsonError α) : Option Json → Except JsonError (Option α)
  | none => .ok none
  | some .null => .ok none
  | some j => (f j).map some

def valueField {V : Type} (codec : Codec V) : Option Json → Except JsonError V
  | some j => codec.deserialize j
  | none => match codec.missing with
      | some v => .ok v
      | none => .error .data

def ofU32 (n : UInt32) : Json := .number (.posInt n.toUInt64)

def ofU64 (n : UInt64) : Json := .number (.posInt n)

def u32 : Json → Except JsonError UInt32
  | .number (.posInt n) => if n.toNat < 2 ^ 32 then .ok n.toUInt32 else .error .data
  | _ => .error .data

def u64 : Json → Except JsonError UInt64
  | .number (.posInt n) => .ok n
  | _ => .error .data

def text : Json → Except JsonError String
  | .string s => .ok s
  | _ => .error .data

def uuid (serde : Serde) : Json → Except JsonError Uuid
  | .string s => match serde.parseUuid s with
      | some id => .ok id
      | none => .error .data
  | _ => .error .data

def ofUuid (serde : Serde) (id : Uuid) : Json := .string (serde.uuidText id)

def sequence {α : Type} (f : Json → Except JsonError α) : Json → Except JsonError (List α)
  | .array items => items.mapM f
  | _ => .error .data

def btreeMap {V : Type} (f : Json → Except JsonError V) :
    Json → Except JsonError (SortedMap String V)
  | .object members => members.foldlM (fun m p => (f p.2).map (m.insert p.1)) SortedMap.empty
  | _ => .error .data

@[simp] theorem u32_ofU32 (n : UInt32) : (ofU32 n).u32 = .ok n := by
  simpa [ofU32,u32] using n.toNat_lt

@[simp] theorem u64_ofU64 (n : UInt64) : (ofU64 n).u64 = .ok n := rfl

@[simp] theorem text_string (s : String) : (Json.string s).text = .ok s := rfl

@[simp] theorem uuid_ofUuid (serde : Serde) (id : Uuid) : (ofUuid serde id).uuid serde = .ok id := by
  simp [ofUuid,uuid,serde.parseUuid_uuidText]

@[simp] theorem depth_ofU32 (n : UInt32) : (ofU32 n).depth = 0 := rfl

@[simp] theorem depth_ofU64 (n : UInt64) : (ofU64 n).depth = 0 := rfl

@[simp] theorem depth_ofUuid (serde : Serde) (id : Uuid) : (ofUuid serde id).depth = 0 := rfl

end Json

def textCodec : Codec String := ⟨fun s => .ok (.string s),Json.text,none⟩

theorem textCodec_faithful : textCodec.Faithful := fun s => ⟨.string s,rfl,rfl⟩

theorem textCodec_roundTrips {levels : ℕ} (h : levels ≤ recursionLimit) :
    textCodec.RoundTrips levels :=
  fun s => ⟨.string s,rfl,by simpa using h,rfl⟩

end Objsds
