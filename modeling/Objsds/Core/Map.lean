import Objsds.Core.Document
import Objsds.Structure.Optimistic

namespace Objsds

open Foundation

variable {ε V : Type}

structure OwnedMapDocument (V : Type) extends Header where
  entries : SortedMap String V

structure MapDocument (V : Type) extends Header where
  entries : SortedMap String V

def serializeEntries (codec : Codec V) (entries : SortedMap String V) : Except JsonError Json := do
  let members ← entries.entries.mapM (fun p => (codec.serialize p.2).map (p.1,·))
  return .object members

def MapDocument.serialize (codec : Codec V) (document : MapDocument V) :
    Except JsonError Json := do
  let entries ← serializeEntries codec document.entries
  return document.toHeader.document "entries" entries

def OwnedMapDocument.serialize (codec : Codec V) (document : OwnedMapDocument V) :
    Except JsonError Json := do
  let entries ← serializeEntries codec document.entries
  return document.toHeader.document "entries" entries

def OwnedMapDocument.deserialize (codec : Codec V) (j : Json) :
    Except JsonError (OwnedMapDocument V) := do
  let header ← Header.deserialize j
  let entries ← Header.payload "entries" (Json.btreeMap codec.deserialize) j
  return ⟨header,entries⟩

inductive InsertIfAbsent (V : Type) where
  | inserted (version : Version)
  | occupied (value : V)

def OwnedMapDocument.fromSlice (serde : Serde) (codec : Codec V) (bytes : Bytes) :
    Except JsonError (OwnedMapDocument V) :=
  serde.fromSlice bytes >>= OwnedMapDocument.deserialize codec

section RoundTrip

theorem btreeMap_foldlM {f : Json → Except JsonError V} {xs : List (String × V)}
    {members : List (String × Json)}
    (h : List.Forall₂ (fun p x => (f p.2).map (p.1,·) = .ok x) members xs) :
    ∀ m : SortedMap String V, members.foldlM (fun m p => (f p.2).map (m.insert p.1)) m =
      .ok (xs.foldl (fun m p => m.insert p.1 p.2) m) := by
  induction h with
  | nil => exact fun m => rfl
  | cons hp _ ih =>
      intro m
      obtain ⟨v,hv,rfl⟩ := except_map_eq_ok.mp hp
      rw [List.foldlM_cons,List.foldl_cons,hv,except_map_ok,except_ok_bind]
      exact ih _

theorem serializeEntries_reads {codec : Codec V} {P : Json → Prop} (entries : SortedMap String V)
    (hrt : ∀ p ∈ entries.entries, ∃ j, codec.serialize p.2 = .ok j ∧ P j ∧
      codec.deserialize j = .ok p.2) :
    ∃ members, serializeEntries codec entries = .ok (.object members) ∧
      (∀ p ∈ members, P p.2) ∧
      (Json.object members).btreeMap codec.deserialize = .ok entries := by
  have hp : ∀ x ∈ entries.entries, ∃ y : String × Json,
      (codec.serialize x.2).map (x.1,·) = .ok y ∧ P y.2 ∧
        (codec.deserialize y.2).map (y.1,·) = .ok x := by
    rintro ⟨k,v⟩ hp
    obtain ⟨j,hj,hd,hv⟩ := hrt (k,v) hp
    exact ⟨(k,j),by simp [hj],hd,by simp [hv]⟩
  obtain ⟨members,hs,hd,hm⟩ := mapM_roundTrip hp
  refine ⟨members,by simp [serializeEntries,hs],hd,?_⟩
  rw [Json.btreeMap,btreeMap_foldlM (mapM_ok_iff.mp hm)]
  refine congrArg _ (SortedMap.ext ?_)
  rw [SortedMap.foldl_insert_entries _ _ entries.increasing]
  rfl

theorem serializeEntries_roundTrip {codec : Codec V} {levels : ℕ}
    (hl : levels < recursionLimit) (entries : SortedMap String V)
    (hrt : ∀ p ∈ entries.entries, codec.ReadsBack (levels + 1) p.2) :
    ∃ j, serializeEntries codec entries = .ok j ∧ j.depth + levels ≤ recursionLimit ∧
      j.btreeMap codec.deserialize = .ok entries := by
  obtain ⟨members,hs,hd,hm⟩ := serializeEntries_reads entries hrt
  refine ⟨.object members,hs,?_,hm⟩
  have : (Json.object members).depth ≤ recursionLimit - levels - 1 + 1 :=
    Json.depth_object_le.mpr (fun p hp => by have := hd p hp; omega)
  omega

theorem OwnedMapDocument.deserialize_document {codec : Codec V} {h : Header} {j : Json}
    {entries : SortedMap String V} (he : j.btreeMap codec.deserialize = .ok entries) :
    OwnedMapDocument.deserialize codec (h.document "entries" j) = .ok ⟨h,entries⟩ := by
  rw [deserialize,Header.deserialize_document _ _ (by decide) (by decide) (by decide),
    except_ok_bind,Header.payload_document _ _ _ (by decide) (by decide) (by decide),he]
  rfl

end RoundTrip

structure Map (V : Type) where
  location : Location
  schema : String
  codec : Codec V
  serde : Serde

namespace Map

def emptyBytes (self : Map V) : Except (Error ε) Bytes :=
  let document : MapDocument V := ⟨⟨Core.FORMAT_VERSION,"map",self.schema⟩,.empty⟩
  ((document.serialize self.codec).map self.serde.toVec).mapError
    (fun e => .document (.serialize e))

def read (self : Map V) : Fallible ε (Error ε) (Version × OwnedMapDocument V) := do
  let found ← attempt (Store.get self.location) Error.store
  let object ← raise (found.elim (.error .notFound) .ok)
  let document ← raise ((OwnedMapDocument.fromSlice self.serde self.codec object.bytes).mapError
    (fun e => .document (.deserialize e)))
  raise (Core.validate document.formatVersion document.kind document.schema "map" self.schema)
  return (object.version,document)

def write (self : Map V) (version : Version) (document : OwnedMapDocument V) :
    Fallible ε (Error ε) Version := do
  let bytes ← raise (((document.serialize self.codec).map self.serde.toVec).mapError
    (fun e => .document (.serialize e)))
  Core.replace self.location version bytes

def get (self : Map V) (key : String) : Fallible ε (Error ε) (Option V) := do
  let (_,document) ← self.read
  return (document.entries.remove key).1

def entries (self : Map V) : Fallible ε (Error ε) (List (String × V)) := do
  let (_,document) ← self.read
  return document.entries.entries

def insert (self : Map V) (key : String) (value : V) : Fallible ε (Error ε) Version := do
  let (version,document) ← self.read
  self.write version { document with entries := document.entries.insert key value }

def insertIfAbsent (self : Map V) (key : String) (value : V) :
    Fallible ε (Error ε) (InsertIfAbsent V) := do
  let (version,document) ← self.read
  let (removed,entries) := document.entries.remove key
  match removed with
  | some value => return .occupied value
  | none => do
      let version ← self.write version { document with entries := entries.insert key value }
      return .inserted version

def remove (self : Map V) (key : String) : Fallible ε (Error ε) (Option V) := do
  let (version,document) ← self.read
  let (removed,entries) := document.entries.remove key
  if removed.isSome then do
    let _ ← self.write version { document with entries := entries }
    return removed
  else return removed

inductive Op (V : Type) where
  | get (key : String)
  | entries
  | insert (key : String) (value : V)
  | insertIfAbsent (key : String) (value : V)
  | remove (key : String)

inductive Outcome (V : Type) where
  | value (found : Option V)
  | entries (all : List (String × V))
  | version (version : Version)
  | insertIfAbsent (result : InsertIfAbsent V)
  | removed (value : Option V)

def perform (self : Map V) : Op V → Action ε (Except (Error ε) (Outcome V))
  | .get key => (Outcome.value <$> self.get key).run
  | .entries => (Outcome.entries <$> self.entries).run
  | .insert key value => (Outcome.version <$> self.insert key value).run
  | .insertIfAbsent key value => (Outcome.insertIfAbsent <$> self.insertIfAbsent key value).run
  | .remove key => (Outcome.removed <$> self.remove key).run

section Procedures

def decode (self : Map V) (bytes : Bytes) : Except (Error ε) (OwnedMapDocument V) := do
  let document ← (OwnedMapDocument.fromSlice self.serde self.codec bytes).mapError
    (fun e => Error.document (.deserialize e))
  Core.validate document.formatVersion document.kind document.schema "map" self.schema
  return document

def encode (self : Map V) (document : OwnedMapDocument V) : Except (Error ε) Bytes :=
  ((document.serialize self.codec).map self.serde.toVec).mapError
    (fun e => .document (.serialize e))

def medium (self : Map V) : Medium (OwnedMapDocument V) (Error ε) ε where
  location := self.location
  decode := self.decode
  encode := self.encode
  notFound := .notFound
  storeError := .store
  conflict := .conflict

def procedure : Op V → Procedure (OwnedMapDocument V) (Error ε) (Outcome V)
  | .get key => .transact (fun d => .respond (.ok (.value (d.entries.get? key))))
  | .entries => .transact (fun d => .respond (.ok (.entries d.entries.entries)))
  | .insert key value => .transact (fun d =>
      .commit { d with entries := d.entries.insert key value } .version)
  | .insertIfAbsent key value => .transact (fun d =>
      match d.entries.get? key with
      | some found => .respond (.ok (.insertIfAbsent (.occupied found)))
      | none => .commit { d with entries := (d.entries.erase key).insert key value }
          (fun version => .insertIfAbsent (.inserted version)))
  | .remove key => .transact (fun d =>
      match d.entries.get? key with
      | some found => .commit { d with entries := d.entries.erase key }
          (fun _ => .removed (some found))
      | none => .respond (.ok (.removed none)))

theorem decode_eq_ok {self : Map V} {b : Bytes} {d : OwnedMapDocument V} :
    self.decode (ε := ε) b = .ok d ↔ OwnedMapDocument.fromSlice self.serde self.codec b = .ok d ∧
      d.toHeader = ⟨Core.FORMAT_VERSION,"map",self.schema⟩ := by
  simp only [decode,except_bind_eq_ok,except_mapError_eq_ok,except_pure,Except.ok.injEq]
  constructor
  · rintro ⟨d,hd,⟨⟩,hv,rfl⟩
    obtain ⟨hf,hk,hs⟩ := Core.validate_eq_ok.mp hv
    exact ⟨hd,by rw [← hf,← hk,← hs]⟩
  · rintro ⟨hd,hh⟩
    refine ⟨d,hd,(),Core.validate_eq_ok.mpr ?_,rfl⟩
    simp [hh]

theorem decode_header {self : Map V} {b : Bytes} {d : OwnedMapDocument V}
    (h : self.decode (ε := ε) b = .ok d) :
    ∃ j, self.serde.fromSlice b = .ok j ∧
      Header.deserialize j = .ok ⟨Core.FORMAT_VERSION,"map",self.schema⟩ := by
  obtain ⟨hs,hh⟩ := decode_eq_ok.mp h
  obtain ⟨j,hj,hd⟩ := except_bind_eq_ok.mp hs
  obtain ⟨header,hhead,hd⟩ := except_bind_eq_ok.mp hd
  obtain ⟨_,-,hd⟩ := except_bind_eq_ok.mp hd
  obtain rfl := Except.ok.inj hd
  exact ⟨j,hj,hhead.trans (congrArg _ hh)⟩

theorem encode_readsBack {self : Map V} {d : OwnedMapDocument V}
    (hrt : ∀ p ∈ d.entries.entries, self.codec.ReadsBack 2 p.2)
    (hh : d.toHeader = ⟨Core.FORMAT_VERSION,"map",self.schema⟩) :
    ∃ b, self.encode (ε := ε) d = .ok b ∧ self.decode (ε := ε) b = .ok d := by
  obtain ⟨j,hj,hd,he⟩ := serializeEntries_roundTrip (by decide) d.entries hrt
  have hdepth : (d.toHeader.document "entries" j).depth ≤ recursionLimit := by
    rw [Header.depth_document]
    exact hd
  refine ⟨self.serde.toVec (d.toHeader.document "entries" j),?_,decode_eq_ok.mpr ⟨?_,hh⟩⟩
  · simp [encode,OwnedMapDocument.serialize,hj]
  · rw [OwnedMapDocument.fromSlice,self.serde.fromSlice_toVec hdepth,except_ok_bind,
      OwnedMapDocument.deserialize_document he]

theorem encode_roundTrip {self : Map V} (hrt : self.codec.RoundTrips 2)
    {d : OwnedMapDocument V} (hh : d.toHeader = ⟨Core.FORMAT_VERSION,"map",self.schema⟩) :
    ∃ b, self.encode (ε := ε) d = .ok b ∧ self.decode (ε := ε) b = .ok d :=
  encode_readsBack (fun p _ => hrt p.2) hh

theorem decode_of_encode {self : Map V} (hrt : self.codec.RoundTrips 2)
    {d : OwnedMapDocument V} {b : Bytes} (hb : self.encode (ε := ε) d = .ok b)
    (hh : d.toHeader = ⟨Core.FORMAT_VERSION,"map",self.schema⟩) :
    self.decode (ε := ε) b = .ok d := by
  obtain ⟨b',hb',hd⟩ := encode_roundTrip (ε := ε) hrt hh
  obtain rfl : b = b' := Except.ok.inj (hb.symm.trans hb')
  exact hd

theorem read_run (self : Map V) : (self.read : Fallible ε (Error ε) _).run =
    .perform (.store (.get self.location)) (fun r => .done (self.medium.snapshot r)) := by
  simp only [read,fallible_bind_run,attempt_run,store_get_bind,Program.perform_bind]
  congr 1
  funext r
  match r with
  | .error e => rfl
  | .ok none => rfl
  | .ok (some o) =>
      simp only [except_mapError_ok,Program.done_bind,Option.elim_some,raise_run,
        Medium.snapshot,medium,decode]
      cases OwnedMapDocument.fromSlice self.serde self.codec o.bytes with
      | error e => rfl
      | ok d =>
          simp only [except_mapError_ok,except_ok_bind]
          cases Core.validate (ε := ε) d.formatVersion d.kind d.schema "map" self.schema <;> rfl

theorem write_run (self : Map V) (version : Version) (d : OwnedMapDocument V) :
    (self.write version d : Fallible ε (Error ε) _).run =
      (Plan.commit d id : Plan _ (Error ε) _).program self.medium version := by
  simp only [write,fallible_bind_run,raise_run,Program.done_bind,Plan.program,medium,encode]
  cases (((d.serialize self.codec).map self.serde.toVec).mapError
    (fun e => Error.document (ε := ε) (.serialize e))) with
  | error e => rfl
  | ok b =>
      simp only [Core.replace,attempt_run,store_replace_bind]
      congr 1
      funext r
      cases r <;> rfl

theorem perform_eq (self : Map V) (op : Op V) :
    (self.perform op : Action ε _) = (procedure op).program self.medium := by
  cases op with
  | get key =>
      rw [perform,get,map_bind]
      exact transact_of_read self.read_run (fun version d => rfl)
  | entries =>
      rw [perform,entries,map_bind]
      exact transact_of_read self.read_run (fun version d => rfl)
  | insert key value =>
      rw [perform,insert,map_bind]
      exact transact_of_read self.read_run
        (fun version d => commit_of_write (self.write_run version _) _)
  | insertIfAbsent key value =>
      rw [perform,insertIfAbsent,map_bind]
      refine transact_of_read self.read_run (fun version d => ?_)
      cases hk : d.entries.get? key with
      | some found =>
          simp only [SortedMap.remove,hk]
          rfl
      | none =>
          simp only [SortedMap.remove,hk,bind_pure_comp,Functor.map_map]
          exact commit_of_write (self.write_run version _) _
  | remove key =>
      rw [perform,remove,map_bind]
      refine transact_of_read self.read_run (fun version d => ?_)
      cases hk : d.entries.get? key with
      | some found =>
          simp only [SortedMap.remove,hk,Option.isSome_some,if_true,bind_pure_comp,
            Functor.map_map]
          exact commit_of_write (self.write_run version _) _
      | none =>
          simp only [SortedMap.remove,hk]
          rfl

end Procedures

end Map

end Objsds
