import Objsds.Core.Document

namespace Objsds

open Foundation

variable {V : Type}

abbrev MessageId := Uuid

abbrev LeaseToken := Uuid

structure Lease where
  token : LeaseToken
  expiresAtMillis : UInt64
deriving DecidableEq

namespace Lease

def serialize (serde : Serde) (lease : Lease) : Json :=
  .object [("token",.ofUuid serde lease.token),("expires_at_millis",.ofU64 lease.expiresAtMillis)]

def deserialize (serde : Serde) (j : Json) : Except JsonError Lease := do
  let token ← (← j.field 2 0 "token") |> Json.required (Json.uuid serde)
  let expiresAtMillis ← (← j.field 2 1 "expires_at_millis") |> Json.required Json.u64
  return ⟨token,expiresAtMillis⟩

theorem deserialize_serialize (serde : Serde) (lease : Lease) :
    deserialize serde (lease.serialize serde) = .ok lease := by
  simp [deserialize,serialize,Json.field,Json.required]

theorem depth_serialize (serde : Serde) (lease : Lease) : (lease.serialize serde).depth = 1 := by
  simp [serialize,Json.depth,Json.depthMembers]

def serializeOption (serde : Serde) : Option Lease → Json
  | none => .null
  | some lease => lease.serialize serde

theorem optional_serializeOption (serde : Serde) (lease : Option Lease) :
    Json.optional (deserialize serde) (some (serializeOption serde lease)) = .ok lease := by
  cases lease with
  | none => rfl
  | some lease =>
      simp only [serializeOption,serialize,Json.optional]
      exact congrArg (Except.map some) (deserialize_serialize serde lease)

theorem depth_serializeOption (serde : Serde) (lease : Option Lease) :
    (serializeOption serde lease).depth ≤ 1 := by
  cases lease with
  | none => simp [serializeOption]
  | some lease => exact le_of_eq (depth_serialize serde lease)

end Lease

structure Message (V : Type) where
  id : MessageId
  value : V
  attempts : UInt32
  lease : Option Lease
deriving DecidableEq

structure Ticket where
  id : MessageId
  attempts : UInt32
  lease : Option Lease
deriving DecidableEq

namespace Message

def ticket (message : Message V) : Ticket := ⟨message.id,message.attempts,message.lease⟩

def serialize (serde : Serde) (codec : Codec V) (message : Message V) : Except JsonError Json := do
  let value ← codec.serialize message.value
  return .object [("id",.ofUuid serde message.id),("value",value),
    ("attempts",.ofU32 message.attempts),("lease",Lease.serializeOption serde message.lease)]

def deserialize (serde : Serde) (codec : Codec V) (j : Json) : Except JsonError (Message V) := do
  let id ← (← j.field 4 0 "id") |> Json.required (Json.uuid serde)
  let value ← (← j.field 4 1 "value") |> Json.valueField codec
  let attempts ← (← j.field 4 2 "attempts") |> Json.required Json.u32
  let lease ← (← j.field 4 3 "lease") |> Json.optional (Lease.deserialize serde)
  return ⟨id,value,attempts,lease⟩

theorem serialize_reads (serde : Serde) {codec : Codec V} {message : Message V} {value : Json}
    (hj : codec.serialize message.value = .ok value)
    (hv : codec.deserialize value = .ok message.value) :
    ∃ j, message.serialize serde codec = .ok j ∧ j.depth ≤ max value.depth 1 + 1 ∧
      deserialize serde codec j = .ok message := by
  refine ⟨_,by rw [serialize,hj]; rfl,?_,?_⟩
  · have hl := Lease.depth_serializeOption serde message.lease
    simp only [Json.depth,Json.depthMembers,Json.depth_ofUuid,Json.depth_ofU32]
    omega
  · simp [deserialize,Json.field,Json.required,Json.valueField,hv,
      Lease.optional_serializeOption]

theorem serialize_roundTrip (serde : Serde) {codec : Codec V} {message : Message V}
    (hrt : codec.ReadsBack 3 message.value) :
    ∃ j, message.serialize serde codec = .ok j ∧ j.depth + 2 ≤ recursionLimit ∧
      deserialize serde codec j = .ok message := by
  obtain ⟨value,hs,hd,hv⟩ := hrt
  obtain ⟨j,hj,hdepth,hread⟩ := serialize_reads serde hs hv
  have : recursionLimit = 127 := rfl
  exact ⟨j,hj,by omega,hread⟩

theorem reload (serde : Serde) {codec : Codec V} {message message' : Message V} {j : Json}
    (hs : message.serialize serde codec = .ok j) (hd : deserialize serde codec j = .ok message') :
    message'.ticket = message.ticket := by
  obtain ⟨value,-,hj⟩ := except_bind_eq_ok.mp hs
  obtain rfl := Except.ok.inj hj
  have hread : ∃ v, codec.deserialize value = .ok v ∧
      ⟨message.id,v,message.attempts,message.lease⟩ = message' := by
    simpa [deserialize,Json.field,Json.required,Json.valueField,Lease.optional_serializeOption,
      except_bind_eq_ok] using hd
  obtain ⟨v,-,rfl⟩ := hread
  rfl

theorem reload_all (serde : Serde) {codec : Codec V} {messages messages' : List (Message V)}
    {items : List Json}
    (hs : List.Forall₂ (fun m j => serialize serde codec m = .ok j) messages items)
    (hd : List.Forall₂ (fun j m => deserialize serde codec j = .ok m) items messages') :
    messages'.map ticket = messages.map ticket := by
  induction hs generalizing messages' with
  | nil =>
      cases hd
      rfl
  | cons hm _ ih =>
      cases hd with
      | cons hm' hms' => rw [List.map_cons,List.map_cons,reload serde hm hm',ih hms']

end Message

namespace Queue

structure Document (V : Type) extends Header where
  messages : List (Message V)

namespace Document

def serialize (serde : Serde) (codec : Codec V) (document : Document V) :
    Except JsonError Json := do
  let messages ← document.messages.mapM (Message.serialize serde codec)
  return document.toHeader.document "messages" (.array messages)

def deserialize (serde : Serde) (codec : Codec V) (j : Json) :
    Except JsonError (Document V) := do
  let header ← Header.deserialize j
  let messages ← Header.payload "messages" (Json.sequence (Message.deserialize serde codec)) j
  return ⟨header,messages⟩

def fromSlice (serde : Serde) (codec : Codec V) (bytes : Bytes) :
    Except JsonError (Document V) :=
  serde.fromSlice bytes >>= deserialize serde codec

theorem serialize_roundTrip (serde : Serde) {codec : Codec V} (document : Document V)
    (hrt : ∀ m ∈ document.messages, codec.ReadsBack 3 m.value) :
    ∃ j, document.serialize serde codec = .ok j ∧
      fromSlice serde codec (serde.toVec j) = .ok document := by
  obtain ⟨items,hi,hs,hh,hm⟩ := document.toHeader.sequence_roundTrip serde "messages"
    document.messages (by decide) (by decide) (by decide)
    (fun m hm => Message.serialize_roundTrip serde (hrt m hm))
  refine ⟨_,by rw [serialize,hi]; rfl,?_⟩
  rw [fromSlice,hs,except_ok_bind,deserialize,hh,except_ok_bind,hm]
  rfl

theorem reload (serde : Serde) {codec : Codec V} {document document' : Document V} {j : Json}
    (hs : document.serialize serde codec = .ok j)
    (hd : fromSlice serde codec (serde.toVec j) = .ok document') :
    document'.toHeader = document.toHeader ∧
      document'.messages.map Message.ticket = document.messages.map Message.ticket := by
  obtain ⟨items,hitems,hj⟩ := except_bind_eq_ok.mp hs
  obtain rfl := Except.ok.inj hj
  obtain ⟨j',hj',hdes⟩ := except_bind_eq_ok.mp hd
  obtain ⟨rfl,-⟩ := serde.fromSlice_toVec_inv hj'
  rw [deserialize,Header.deserialize_document _ _ (by decide) (by decide) (by decide),
    except_ok_bind,Header.payload_document _ _ _ (by decide) (by decide) (by decide)] at hdes
  obtain ⟨messages,hm,he⟩ := except_bind_eq_ok.mp hdes
  obtain rfl := Except.ok.inj he
  refine ⟨rfl,?_⟩
  exact Message.reload_all serde (mapM_ok_iff.mp hitems) (mapM_ok_iff.mp hm)

end Document

end Queue

end Objsds
