import Objsds.Json.Compact
import Objsds.System.Site

namespace Objsds

open Foundation

variable {ε V : Type}

section Trees

def Map.accept (self : Map V) (j : Json) : Except (Error ε) (OwnedMapDocument V) := do
  let document ← (OwnedMapDocument.deserialize self.codec j).mapError
    (fun e => Error.document (.deserialize e))
  Core.validate document.formatVersion document.kind document.schema "map" self.schema
  return document

def Log.accept (self : Log V) (j : Json) : Except (Error ε) (LogDocument V) := do
  let document ← (LogDocument.deserialize self.serde self.codec j).mapError
    (fun e => Error.document (.deserialize e))
  Core.validate document.formatVersion document.kind document.schema "log" self.schema
  if outOfOrder Record.id document.records then
    throw (.document (.corrupt "log record IDs must be strictly increasing"))
  return document

def Queue.accept (self : Queue V) (j : Json) : Except (Error ε) (Document V) := do
  let document ← (Document.deserialize self.serde self.codec j).mapError Error.document
  validate document self.schema
  return document

theorem Map.decode_eq_accept (self : Map V) (b : Bytes) : self.decode (ε := ε) b =
    (self.serde.fromSlice b).mapError (fun e => .document (.deserialize e)) >>= self.accept := by
  rw [decode,OwnedMapDocument.fromSlice]
  cases self.serde.fromSlice b <;> rfl

theorem Log.decode_eq_accept (self : Log V) (b : Bytes) : self.decode (ε := ε) b =
    (self.serde.fromSlice b).mapError (fun e => .document (.deserialize e)) >>= self.accept := by
  rw [decode,LogDocument.fromSlice]
  cases self.serde.fromSlice b <;> rfl

theorem Queue.decode_eq_accept (self : Queue V) (b : Bytes) : self.decode (ε := ε) b =
    (self.serde.fromSlice b).mapError .document >>= self.accept := by
  rw [decode,Document.fromSlice]
  cases self.serde.fromSlice b <;> rfl

theorem Map.accept_of_deserialize {self : Map V} {j : Json} {d : OwnedMapDocument V}
    (hd : OwnedMapDocument.deserialize self.codec j = .ok d)
    (hh : d.toHeader = ⟨Core.FORMAT_VERSION,"map",self.schema⟩) :
    self.accept (ε := ε) j = .ok d := by
  have hv := Core.validate_eq_ok (ε := ε).mpr
    (by simp [hh] : d.formatVersion = _ ∧ d.kind = "map" ∧ d.schema = self.schema)
  simp only [accept,hd,except_mapError_ok,except_ok_bind,hv,except_pure]

theorem Log.accept_of_deserialize {self : Log V} {j : Json} {d : LogDocument V}
    (hd : LogDocument.deserialize self.serde self.codec j = .ok d)
    (hh : d.toHeader = ⟨Core.FORMAT_VERSION,"log",self.schema⟩)
    (ho : outOfOrder Record.id d.records = false) : self.accept (ε := ε) j = .ok d := by
  have hv := Core.validate_eq_ok (ε := ε).mpr
    (by simp [hh] : d.formatVersion = _ ∧ d.kind = "log" ∧ d.schema = self.schema)
  simp [accept,hd,hv,ho]

theorem Queue.accept_of_deserialize {self : Queue V} {j : Json} {d : Document V}
    (hd : Document.deserialize self.serde self.codec j = .ok d)
    (hh : d.toHeader = ⟨FORMAT_VERSION,KIND,self.schema⟩)
    (ho : outOfOrder Message.id d.messages = false) : self.accept (ε := ε) j = .ok d := by
  have hv := validate_eq_ok (ε := ε).mpr ⟨hh,outOfOrder_eq_false.mp ho⟩
  simp only [accept,hd,except_mapError_ok,except_ok_bind,hv,except_pure]

end Trees

section RoundTrip

theorem MapDocument.serialize_reads {codec : Codec V} (hc : codec.Faithful) (d : MapDocument V) :
    ∃ j, d.serialize codec = .ok j ∧
      OwnedMapDocument.deserialize codec j = .ok ⟨d.toHeader,d.entries⟩ := by
  obtain ⟨members,hs,-,he⟩ := serializeEntries_reads (P := fun _ => True) d.entries
    (fun p _ => let ⟨j,hj,hv⟩ := hc p.2; ⟨j,hj,trivial,hv⟩)
  exact ⟨_,by rw [serialize,hs]; rfl,OwnedMapDocument.deserialize_document he⟩

theorem OwnedMapDocument.serialize_reads {codec : Codec V} (hc : codec.Faithful)
    (d : OwnedMapDocument V) :
    ∃ j, d.serialize codec = .ok j ∧ deserialize codec j = .ok d :=
  MapDocument.serialize_reads hc ⟨d.toHeader,d.entries⟩

theorem LogDocument.serialize_reads (serde : Serde) {codec : Codec V} (hc : codec.Faithful)
    (d : LogDocument V) :
    ∃ j, d.serialize serde codec = .ok j ∧ deserialize serde codec j = .ok d := by
  have hr : ∀ r ∈ d.records, ∃ j, r.serialize serde codec = .ok j ∧ True ∧
      Record.deserialize serde codec j = .ok r := by
    intro r _
    obtain ⟨value,hs,hv⟩ := hc r.value
    obtain ⟨j,hj,-,hread⟩ := Record.serialize_reads serde hs hv
    exact ⟨j,hj,trivial,hread⟩
  obtain ⟨items,hi,-,hh,hm⟩ := d.toHeader.sequence_reads "records" d.records (by decide)
    (by decide) (by decide) hr
  refine ⟨_,by rw [serialize,hi]; rfl,?_⟩
  rw [deserialize,hh,except_ok_bind,hm]
  rfl

theorem Queue.Document.serialize_reads (serde : Serde) {codec : Codec V} (hc : codec.Faithful)
    (d : Document V) :
    ∃ j, d.serialize serde codec = .ok j ∧ deserialize serde codec j = .ok d := by
  have hr : ∀ m ∈ d.messages, ∃ j, m.serialize serde codec = .ok j ∧ True ∧
      Message.deserialize serde codec j = .ok m := by
    intro m _
    obtain ⟨value,hs,hv⟩ := hc m.value
    obtain ⟨j,hj,-,hread⟩ := Message.serialize_reads serde hs hv
    exact ⟨j,hj,trivial,hread⟩
  obtain ⟨items,hi,-,hh,hm⟩ := d.toHeader.sequence_reads "messages" d.messages (by decide)
    (by decide) (by decide) hr
  refine ⟨_,by rw [serialize,hi]; rfl,?_⟩
  rw [deserialize,hh,except_ok_bind,hm]
  rfl

end RoundTrip

def Submits {β : Type} (p : Action ε β) (request : Request) : Prop :=
  ∃ next, p = .perform (.store request) next

section Write

variable {version : Version} {j : Json}

theorem Map.write_submits {self : Map V} {d : OwnedMapDocument V}
    (hj : d.serialize self.codec = .ok j) :
    Submits (self.write version d : Fallible ε (Error ε) _).run
      (.replace self.location version (self.serde.toVec j)) := by
  rw [write_run]
  simp [Submits,Plan.program,medium,encode,hj]

theorem Log.write_submits {self : Log V} {d : LogDocument V}
    (hj : d.serialize self.serde self.codec = .ok j) :
    Submits (self.write version d : Fallible ε (Error ε) _).run
      (.replace self.location version (self.serde.toVec j)) := by
  rw [write_run]
  simp [Submits,Plan.program,medium,encode,hj]

theorem Queue.write_submits {self : Queue V} {d : Document V}
    (hj : d.serialize self.serde self.codec = .ok j) :
    Submits (self.write version d : Fallible ε (Error ε) _).run
      (.replace self.location version (self.serde.toVec j)) := by
  rw [write_run]
  simp [Submits,Plan.program,medium,encode,hj]

end Write

inductive Handle : Type 1 where
  | map {V : Type} (handle : Map V)
  | log {V : Type} (handle : Log V)
  | queue {V : Type} (handle : Queue V)

namespace Handle

def kind : Handle → Kind
  | .map _ => .map
  | .log _ => .log
  | .queue _ => .queue

def schema : Handle → String
  | .map handle => handle.schema
  | .log handle => handle.schema
  | .queue handle => handle.schema

def serde : Handle → Serde
  | .map handle => handle.serde
  | .log handle => handle.serde
  | .queue handle => handle.serde

def Faithful : Handle → Prop
  | .map handle => handle.codec.Faithful
  | .log handle => handle.codec.Faithful
  | .queue handle => handle.codec.Faithful

def header (h : Handle) : Header := ⟨1,h.kind.text,h.schema⟩

def RoundTrips (ε : Type) : Handle → Prop
  | .map handle =>
      (∀ version d, d.toHeader = header (.map handle) →
        ∃ j, Submits (handle.write version d : Fallible ε (Error ε) _).run
            (.replace handle.location version (handle.serde.toVec j)) ∧
          handle.accept (ε := ε) j = .ok d) ∧
      (∀ d : MapDocument _, d.toHeader = header (.map handle) →
        ∃ j, d.serialize handle.codec = .ok j ∧
          handle.accept (ε := ε) j = .ok ⟨d.toHeader,d.entries⟩) ∧
      ∃ j, handle.emptyBytes (ε := ε) = .ok (handle.serde.toVec j) ∧
        handle.accept (ε := ε) j = .ok ⟨header (.map handle),.empty⟩
  | .log handle =>
      (∀ version d, d.toHeader = header (.log handle) → outOfOrder Record.id d.records = false →
        ∃ j, Submits (handle.write version d : Fallible ε (Error ε) _).run
            (.replace handle.location version (handle.serde.toVec j)) ∧
          handle.accept (ε := ε) j = .ok d) ∧
      ∃ j, handle.emptyBytes (ε := ε) = .ok (handle.serde.toVec j) ∧
        handle.accept (ε := ε) j = .ok ⟨header (.log handle),[]⟩
  | .queue handle =>
      (∀ version d, d.toHeader = header (.queue handle) →
        outOfOrder Message.id d.messages = false →
        ∃ j, Submits (handle.write version d : Fallible ε (Queue.Error ε) _).run
            (.replace handle.location version (handle.serde.toVec j)) ∧
          handle.accept (ε := ε) j = .ok d) ∧
      ∃ j, handle.emptyBytes (ε := ε) = .ok (handle.serde.toVec j) ∧
        handle.accept (ε := ε) j = .ok ⟨header (.queue handle),[]⟩

def Accepts (ε : Type) : Handle → Object → Prop
  | .map handle, o => ∃ found, (handle.read : Fallible ε (Error ε) _).run.Follows
      [⟨.store (.get handle.location),.ok (some o)⟩] (.done (.ok found))
  | .log handle, o => ∃ found, (handle.read : Fallible ε (Error ε) _).run.Follows
      [⟨.store (.get handle.location),.ok (some o)⟩] (.done (.ok found))
  | .queue handle, o => ∃ found, (handle.read : Fallible ε (Queue.Error ε) _).run.Follows
      [⟨.store (.get handle.location),.ok (some o)⟩] (.done (.ok found))

theorem roundTrips_map {handle : Map V} (hc : handle.codec.Faithful) :
    RoundTrips ε (.map handle) := by
  refine ⟨fun version d hh => ?_,fun d hh => ?_,?_⟩
  · obtain ⟨j,hj,hd⟩ := OwnedMapDocument.serialize_reads hc d
    exact ⟨j,Map.write_submits hj,Map.accept_of_deserialize hd hh⟩
  · obtain ⟨j,hj,hd⟩ := MapDocument.serialize_reads hc d
    exact ⟨j,hj,Map.accept_of_deserialize hd hh⟩
  · obtain ⟨j,hj,hd⟩ := MapDocument.serialize_reads hc ⟨header (.map handle),.empty⟩
    refine ⟨j,?_,Map.accept_of_deserialize hd rfl⟩
    have hj' : MapDocument.serialize handle.codec ⟨⟨Core.FORMAT_VERSION,"map",handle.schema⟩,.empty⟩ =
        .ok j := hj
    simp only [Map.emptyBytes,hj',except_map_ok,except_mapError_ok]

theorem roundTrips_log {handle : Log V} (hc : handle.codec.Faithful) :
    RoundTrips ε (.log handle) := by
  refine ⟨fun version d hh ho => ?_,?_⟩
  · obtain ⟨j,hj,hd⟩ := LogDocument.serialize_reads handle.serde hc d
    exact ⟨j,Log.write_submits hj,Log.accept_of_deserialize hd hh ho⟩
  · obtain ⟨j,hj,hd⟩ := LogDocument.serialize_reads handle.serde hc
      ⟨header (.log handle),[]⟩
    refine ⟨j,?_,Log.accept_of_deserialize hd rfl rfl⟩
    have hj' : LogDocument.serialize handle.serde handle.codec
        ⟨⟨Core.FORMAT_VERSION,"log",handle.schema⟩,[]⟩ = .ok j := hj
    simp only [Log.emptyBytes,hj',except_map_ok,except_mapError_ok]

theorem roundTrips_queue {handle : Queue V} (hc : handle.codec.Faithful) :
    RoundTrips ε (.queue handle) := by
  refine ⟨fun version d hh ho => ?_,?_⟩
  · obtain ⟨j,hj,hd⟩ := Queue.Document.serialize_reads handle.serde hc d
    exact ⟨j,Queue.write_submits hj,Queue.accept_of_deserialize hd hh ho⟩
  · obtain ⟨j,hj,hd⟩ := Queue.Document.serialize_reads handle.serde hc
      ⟨header (.queue handle),[]⟩
    refine ⟨j,?_,Queue.accept_of_deserialize hd rfl rfl⟩
    have hj' : Queue.Document.serialize handle.serde handle.codec
        ⟨⟨Queue.FORMAT_VERSION,Queue.KIND,handle.schema⟩,[]⟩ = .ok j := hj
    simp only [Queue.emptyBytes,hj',except_map_ok,except_mapError_ok]

theorem read_follows {D Err : Type} {read : Action ε (Except Err (Version × D))}
    {m : Medium D Err ε} {o : Object} {found : Version × D}
    (hread : read = .perform (.store (.get m.location)) (fun r => .done (m.snapshot r)))
    (h : read.Follows [⟨.store (.get m.location),.ok (some o)⟩] (.done (.ok found))) :
    m.decode o.bytes = .ok found.2 := by
  subst hread
  cases h with
  | step hs =>
      obtain ⟨-,hq⟩ := Program.follows_done.mp hs
      have hm : (m.decode o.bytes).map (o.version,·) = .ok found :=
        (Program.done.inj hq).symm
      obtain ⟨d,hd,rfl⟩ := except_map_eq_ok.mp hm
      exact hd

theorem Accepts.header {h : Handle} {o : Object} (ha : h.Accepts ε o) :
    ∃ j, h.serde.fromSlice o.bytes = .ok j ∧ Header.deserialize j = .ok h.header := by
  cases h with
  | map handle =>
      obtain ⟨found,hf⟩ := ha
      exact Map.decode_header (read_follows (m := handle.medium) handle.read_run hf)
  | log handle =>
      obtain ⟨found,hf⟩ := ha
      exact Log.decode_header (read_follows (m := handle.medium) handle.read_run hf)
  | queue handle =>
      obtain ⟨found,hf⟩ := ha
      exact Queue.decode_header (read_follows (m := handle.medium) handle.read_run hf)

theorem Accepts.same {h h' : Handle} {o o' : Object} (hs : h.serde = h'.serde)
    (hb : o.bytes = o'.bytes) (ha : h.Accepts ε o) (ha' : h'.Accepts ε o') :
    h.kind = h'.kind ∧ h.schema = h'.schema := by
  obtain ⟨j,hj,hh⟩ := ha.header
  obtain ⟨j',hj',hh'⟩ := ha'.header
  rw [hs,hb,hj'] at hj
  obtain rfl := Except.ok.inj hj
  have heq : h.header = h'.header := Except.ok.inj (hh.symm.trans hh')
  exact ⟨Kind.text_inj (congrArg Header.kind heq),congrArg Header.schema heq⟩

theorem formats_round_trip_and_exclude (ε : Type) :
    (∀ h : Handle, h.Faithful → h.RoundTrips ε) ∧
    ∀ h h' : Handle, h.serde = h'.serde → ∀ o o' : Object, o.bytes = o'.bytes →
      h.Accepts ε o → h'.Accepts ε o' → h.kind = h'.kind ∧ h.schema = h'.schema := by
  refine ⟨fun h hc => ?_,fun h h' hs o o' hb ha ha' => ha.same hs hb ha'⟩
  cases h with
  | map handle => exact roundTrips_map hc
  | log handle => exact roundTrips_log hc
  | queue handle => exact roundTrips_queue hc

theorem jobs_format_round_trips :
    RoundTrips Empty (.queue (Queue.mk ⟨"shop/queues/jobs.json",by decide⟩ "v1" textCodec
      compact)) :=
  (formats_round_trip_and_exclude Empty).1 _ textCodec_faithful

end Handle

end Objsds
