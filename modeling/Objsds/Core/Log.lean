import Objsds.Core.Document
import Objsds.Structure.Optimistic

namespace Objsds

open Foundation

variable {ε V : Type}

abbrev LogId := Uuid

structure Record (V : Type) where
  id : LogId
  value : V
deriving DecidableEq

namespace Record

def serialize (serde : Serde) (codec : Codec V) (record : Record V) : Except JsonError Json := do
  let value ← codec.serialize record.value
  return .object [("id",.ofUuid serde record.id),("value",value)]

def deserialize (serde : Serde) (codec : Codec V) (j : Json) : Except JsonError (Record V) := do
  let id ← (← j.field 2 0 "id") |> Json.required (Json.uuid serde)
  let value ← (← j.field 2 1 "value") |> Json.valueField codec
  return ⟨id,value⟩

theorem serialize_reads (serde : Serde) {codec : Codec V} {record : Record V} {value : Json}
    (hj : codec.serialize record.value = .ok value)
    (hv : codec.deserialize value = .ok record.value) :
    ∃ j, record.serialize serde codec = .ok j ∧ j.depth = value.depth + 1 ∧
      deserialize serde codec j = .ok record := by
  refine ⟨_,by rw [serialize,hj]; rfl,?_,?_⟩
  · simp [Json.depth,Json.depthMembers]
  · simp [deserialize,Json.field,Json.required,Json.valueField,hv]

theorem serialize_roundTrip (serde : Serde) {codec : Codec V} {levels : ℕ}
    {record : Record V} (hrt : codec.ReadsBack (levels + 1) record.value) :
    ∃ j, record.serialize serde codec = .ok j ∧ j.depth + levels ≤ recursionLimit ∧
      deserialize serde codec j = .ok record := by
  obtain ⟨value,hs,hd,hv⟩ := hrt
  obtain ⟨j,hj,hdepth,hread⟩ := serialize_reads serde hs hv
  exact ⟨j,hj,by omega,hread⟩

end Record

structure LogDocument (V : Type) extends Header where
  records : List (Record V)

namespace LogDocument

def serialize (serde : Serde) (codec : Codec V) (document : LogDocument V) :
    Except JsonError Json := do
  let records ← document.records.mapM (Record.serialize serde codec)
  return document.toHeader.document "records" (.array records)

def deserialize (serde : Serde) (codec : Codec V) (j : Json) :
    Except JsonError (LogDocument V) := do
  let header ← Header.deserialize j
  let records ← Header.payload "records" (Json.sequence (Record.deserialize serde codec)) j
  return ⟨header,records⟩

def fromSlice (serde : Serde) (codec : Codec V) (bytes : Bytes) :
    Except JsonError (LogDocument V) :=
  serde.fromSlice bytes >>= deserialize serde codec

theorem serialize_roundTrip (serde : Serde) {codec : Codec V} (document : LogDocument V)
    (hrt : ∀ r ∈ document.records, codec.ReadsBack 3 r.value) :
    ∃ j, document.serialize serde codec = .ok j ∧
      fromSlice serde codec (serde.toVec j) = .ok document := by
  obtain ⟨items,hi,hs,hh,hm⟩ := document.toHeader.sequence_roundTrip serde "records"
    document.records (by decide) (by decide) (by decide)
    (fun r hr => Record.serialize_roundTrip serde (hrt r hr))
  refine ⟨_,by rw [serialize,hi]; rfl,?_⟩
  rw [fromSlice,hs,except_ok_bind,deserialize,hh,except_ok_bind,hm]
  rfl

theorem serialize_levels {serde : Serde} {codec : Codec V} {document : LogDocument V} {j : Json}
    (h : document.serialize serde codec = .ok j) {r : Record V} (hr : r ∈ document.records) :
    ∃ value, codec.serialize r.value = .ok value ∧ value.depth + 3 ≤ j.depth := by
  obtain ⟨items,hi,h⟩ := except_bind_eq_ok.mp h
  obtain rfl := Except.ok.inj h
  obtain ⟨item,hitem,hs⟩ := mapM_mem hi hr
  obtain ⟨value,hv,hs⟩ := except_bind_eq_ok.mp hs
  obtain rfl := Except.ok.inj hs
  have harray := Json.depth_lt_array hitem
  have hvalue : value.depth + 1 ≤
      (Json.object [("id",.ofUuid serde r.id),("value",value)]).depth :=
    Json.depth_lt_object (k := "value") (by simp)
  refine ⟨value,hv,?_⟩
  rw [Header.depth_document]
  omega

end LogDocument

structure Log (V : Type) where
  location : Location
  schema : String
  codec : Codec V
  serde : Serde

namespace Log

def emptyBytes (self : Log V) : Except (Error ε) Bytes :=
  let document : LogDocument V := ⟨⟨Core.FORMAT_VERSION,"log",self.schema⟩,[]⟩
  ((document.serialize self.serde self.codec).map self.serde.toVec).mapError
    (fun e => .document (.serialize e))

def read (self : Log V) : Fallible ε (Error ε) (Version × LogDocument V) := do
  let found ← attempt (Store.get self.location) Error.store
  let object ← raise (found.elim (.error .notFound) .ok)
  let document ← raise ((LogDocument.fromSlice self.serde self.codec object.bytes).mapError
    (fun e => .document (.deserialize e)))
  raise (Core.validate document.formatVersion document.kind document.schema "log" self.schema)
  if outOfOrder Record.id document.records then
    throw (.document (.corrupt "log record IDs must be strictly increasing"))
  return (object.version,document)

def write (self : Log V) (version : Version) (document : LogDocument V) :
    Fallible ε (Error ε) Version := do
  let bytes ← raise (((document.serialize self.serde self.codec).map self.serde.toVec).mapError
    (fun e => .document (.serialize e)))
  Core.replace self.location version bytes

def append (self : Log V) (value : V) : Fallible ε (Error ε) LogId := do
  let (version,document) ← self.read
  let id ← ExceptT.lift Uuid.nowV7
  let index := match binarySearchByKey document.records id Record.id with
    | .ok index => index
    | .error index => index
  let document := { document with records := document.records.insertIdx index ⟨id,value⟩ }
  let _ ← self.write version document
  return id

def get (self : Log V) (id : LogId) : Fallible ε (Error ε) (Option (Record V)) := do
  let (_,document) ← self.read
  match binarySearchByKey document.records id Record.id with
  | .ok index => return document.records[index]?
  | .error _ => return none

def records (self : Log V) : Fallible ε (Error ε) (List (Record V)) := do
  let (_,document) ← self.read
  return document.records

def recordsAfter (self : Log V) (id : LogId) : Fallible ε (Error ε) (List (Record V)) := do
  let (_,document) ← self.read
  let index := partitionPoint document.records (fun record => record.id ≤ id)
  return document.records.drop index

inductive Op (V : Type) where
  | append (value : V)
  | get (id : LogId)
  | records
  | recordsAfter (id : LogId)

inductive Outcome (V : Type) where
  | appended (id : LogId)
  | record (found : Option (Record V))
  | records (all : List (Record V))

def perform (self : Log V) : Op V → Action ε (Except (Error ε) (Outcome V))
  | .append value => (Outcome.appended <$> self.append value).run
  | .get id => (Outcome.record <$> self.get id).run
  | .records => (Outcome.records <$> self.records).run
  | .recordsAfter id => (Outcome.records <$> self.recordsAfter id).run

section Procedures

def decode (self : Log V) (bytes : Bytes) : Except (Error ε) (LogDocument V) := do
  let document ← (LogDocument.fromSlice self.serde self.codec bytes).mapError
    (fun e => Error.document (.deserialize e))
  Core.validate document.formatVersion document.kind document.schema "log" self.schema
  if outOfOrder Record.id document.records then
    throw (.document (.corrupt "log record IDs must be strictly increasing"))
  return document

def encode (self : Log V) (document : LogDocument V) : Except (Error ε) Bytes :=
  ((document.serialize self.serde self.codec).map self.serde.toVec).mapError
    (fun e => .document (.serialize e))

def medium (self : Log V) : Medium (LogDocument V) (Error ε) ε where
  location := self.location
  decode := self.decode
  encode := self.encode
  notFound := .notFound
  storeError := .store
  conflict := .conflict

def insertRecord (document : LogDocument V) (record : Record V) : LogDocument V :=
  let index := match binarySearchByKey document.records record.id Record.id with
    | .ok index => index
    | .error index => index
  { document with records := document.records.insertIdx index record }

def lookup (document : LogDocument V) (id : LogId) : Option (Record V) :=
  match binarySearchByKey document.records id Record.id with
  | .ok index => document.records[index]?
  | .error _ => none

def after (document : LogDocument V) (id : LogId) : List (Record V) :=
  document.records.drop (partitionPoint document.records (fun record => record.id ≤ id))

def procedure : Op V → Procedure (LogDocument V) (Error ε) (Outcome V)
  | .append value => .transact (fun d => .generate (fun id =>
      .commit (insertRecord d ⟨id,value⟩) (fun _ => .appended id)))
  | .get id => .transact (fun d => .respond (.ok (.record (lookup d id))))
  | .records => .transact (fun d => .respond (.ok (.records d.records)))
  | .recordsAfter id => .transact (fun d => .respond (.ok (.records (after d id))))

theorem decode_eq_ok {self : Log V} {b : Bytes} {d : LogDocument V} :
    self.decode (ε := ε) b = .ok d ↔ LogDocument.fromSlice self.serde self.codec b = .ok d ∧
      d.toHeader = ⟨Core.FORMAT_VERSION,"log",self.schema⟩ ∧ Increasing Record.id d.records := by
  simp only [decode,except_bind_eq_ok,except_mapError_eq_ok]
  constructor
  · rintro ⟨e,he,⟨⟩,hv,hd⟩
    obtain ⟨hf,hk,hs⟩ := Core.validate_eq_ok.mp hv
    cases ho : outOfOrder Record.id e.records with
    | true => simp [ho,throw,throwThe,MonadExceptOf.throw] at hd
    | false =>
        obtain rfl : e = d := by simpa [ho] using hd
        exact ⟨he,by rw [← hf,← hk,← hs],outOfOrder_eq_false.mp ho⟩
  · rintro ⟨hd,hh,hi⟩
    refine ⟨d,hd,(),Core.validate_eq_ok.mpr (by simp [hh]),?_⟩
    simp [outOfOrder_eq_false.mpr hi]

theorem decode_header {self : Log V} {b : Bytes} {d : LogDocument V}
    (h : self.decode (ε := ε) b = .ok d) :
    ∃ j, self.serde.fromSlice b = .ok j ∧
      Header.deserialize j = .ok ⟨Core.FORMAT_VERSION,"log",self.schema⟩ := by
  obtain ⟨hs,hh,-⟩ := decode_eq_ok.mp h
  obtain ⟨j,hj,hd⟩ := except_bind_eq_ok.mp hs
  obtain ⟨header,hhead,hd⟩ := except_bind_eq_ok.mp hd
  obtain ⟨_,-,hd⟩ := except_bind_eq_ok.mp hd
  obtain rfl := Except.ok.inj hd
  exact ⟨j,hj,hhead.trans (congrArg _ hh)⟩

theorem encode_readsBack {self : Log V} {d : LogDocument V}
    (hrt : ∀ r ∈ d.records, self.codec.ReadsBack 3 r.value)
    (hh : d.toHeader = ⟨Core.FORMAT_VERSION,"log",self.schema⟩)
    (hi : Increasing Record.id d.records) :
    ∃ b, self.encode (ε := ε) d = .ok b ∧ self.decode (ε := ε) b = .ok d := by
  obtain ⟨j,hj,hd⟩ := LogDocument.serialize_roundTrip self.serde d hrt
  exact ⟨self.serde.toVec j,by simp [encode,hj],decode_eq_ok.mpr ⟨hd,hh,hi⟩⟩

theorem encode_total {self : Log V} (hc : self.codec.Faithful) (d : LogDocument V) :
    ∃ b, self.encode (ε := ε) d = .ok b := by
  obtain ⟨items,hi⟩ :
      ∃ items, d.records.mapM (Record.serialize self.serde self.codec) = .ok items := by
    refine mapM_total (fun r _ => ?_)
    obtain ⟨j,hj,-⟩ := hc r.value
    exact ⟨_,by rw [Record.serialize,hj]; rfl⟩
  exact ⟨_,by rw [encode,LogDocument.serialize,hi]; rfl⟩

theorem encode_roundTrip {self : Log V} (hrt : self.codec.RoundTrips 3) {d : LogDocument V}
    (hh : d.toHeader = ⟨Core.FORMAT_VERSION,"log",self.schema⟩)
    (hi : Increasing Record.id d.records) :
    ∃ b, self.encode (ε := ε) d = .ok b ∧ self.decode (ε := ε) b = .ok d :=
  encode_readsBack (fun r _ => hrt r.value) hh hi

theorem read_run (self : Log V) : (self.read : Fallible ε (Error ε) _).run =
    .perform (.store (.get self.location)) (fun r => .done (self.medium.snapshot r)) := by
  simp only [read,fallible_bind_run,attempt_run,store_get_bind,Program.perform_bind]
  congr 1
  funext r
  match r with
  | .error e => rfl
  | .ok none => rfl
  | .ok (some o) =>
      simp only [except_mapError_ok,Program.done_bind,Option.elim_some,raise_run,
        Medium.snapshot,medium,decode]
      cases LogDocument.fromSlice self.serde self.codec o.bytes with
      | error e => rfl
      | ok d =>
          simp only [except_mapError_ok,except_ok_bind]
          cases Core.validate (ε := ε) d.formatVersion d.kind d.schema "log" self.schema with
          | error e => rfl
          | ok _ => cases outOfOrder Record.id d.records <;> rfl

theorem write_run (self : Log V) (version : Version) (d : LogDocument V) :
    (self.write version d : Fallible ε (Error ε) _).run =
      (Plan.commit d id : Plan _ (Error ε) _).program self.medium version := by
  simp only [write,fallible_bind_run,raise_run,Program.done_bind,Plan.program,medium,encode]
  cases (((d.serialize self.serde self.codec).map self.serde.toVec).mapError
    (fun e => Error.document (ε := ε) (.serialize e))) with
  | error e => rfl
  | ok b =>
      simp only [Core.replace,attempt_run,store_replace_bind]
      congr 1
      funext r
      cases r <;> rfl

theorem perform_eq (self : Log V) (op : Op V) :
    (self.perform op : Action ε _) = (procedure op).program self.medium := by
  cases op with
  | append value =>
      rw [perform,append,map_bind]
      refine transact_of_read self.read_run (fun version d => ?_)
      rw [map_bind]
      refine generate_of_now (fun id => ?_)
      simp only [bind_pure_comp,Functor.map_map]
      exact commit_of_write (self.write_run version _) _
  | get id =>
      rw [perform,get,map_bind]
      refine transact_of_read self.read_run (fun version d => ?_)
      simp only [lookup]
      cases binarySearchByKey d.records id Record.id <;> rfl
  | records =>
      rw [perform,records,map_bind]
      exact transact_of_read self.read_run (fun version d => rfl)
  | recordsAfter id =>
      rw [perform,recordsAfter,map_bind]
      exact transact_of_read self.read_run (fun version d => rfl)

end Procedures

end Log

end Objsds
