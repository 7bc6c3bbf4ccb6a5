import Objsds.Binding.Depth
import Objsds.Core.LogHistory
import Objsds.Json.Compact
import Objsds.Queue.Changes
import Objsds.Structure.Uncontended

namespace Objsds

open Foundation

namespace Binding

def boundMap (serde : Serde) (l : Location) (schema : String) : Map Value :=
  ⟨l,schema,valueCodec,serde⟩

def boundLog (serde : Serde) (l : Location) (schema : String) : Log Value :=
  ⟨l,schema,valueCodec,serde⟩

def boundQueue (serde : Serde) (l : Location) (schema : String) : Queue Value :=
  ⟨l,schema,valueCodec,serde⟩

section Documents

variable {ε : Type} {serde : Serde} {l : Location} {schema : String} {b₀ b : Bytes}

theorem map_reload {d : OwnedMapDocument Value} {key : String} {v : Value}
    (hd : (boundMap serde l schema).decode (ε := ε) b₀ = .ok d)
    (hb : (boundMap serde l schema).encode (ε := ε)
      { d with entries := d.entries.insert key v } = .ok b) :
    (v.tree.depth + 2 ≤ recursionLimit → (boundMap serde l schema).decode (ε := ε) b =
      .ok { d with entries := d.entries.insert key v }) ∧
    (recursionLimit < v.tree.depth + 2 →
      ∃ e, (boundMap serde l schema).decode (ε := ε) b = .error e) := by
  obtain ⟨hs,hh⟩ := Map.decode_eq_ok.mp hd
  constructor
  · intro hv
    have hrt : ∀ p ∈ (d.entries.insert key v).entries, valueCodec.ReadsBack 2 p.2 := by
      intro p hp
      rcases SortedMap.mem_insert.mp hp with rfl | hp
      · exact valueCodec_readsBack.mpr hv
      · exact OwnedMapDocument.fromSlice_depth hs p hp.1
    obtain ⟨b',hb',hdec⟩ := Map.encode_readsBack (ε := ε)
      (d := { d with entries := d.entries.insert key v }) hrt hh
    obtain rfl : b = b' := Except.ok.inj (hb.symm.trans hb')
    exact hdec
  · intro hv
    cases hdec : (boundMap serde l schema).decode (ε := ε) b with
    | error e => exact ⟨e,rfl⟩
    | ok d' =>
        obtain ⟨j,hj,rfl⟩ := except_map_eq_ok.mp (except_mapError_eq_ok.mp hb)
        obtain ⟨j',hj',-⟩ := except_bind_eq_ok.mp (Map.decode_eq_ok.mp hdec).1
        obtain ⟨-,hlimit⟩ := serde.fromSlice_toVec_inv hj'
        have := OwnedMapDocument.serialize_depth hj (key,v) (SortedMap.mem_insert.mpr (.inl rfl))
        simp only at this
        omega

theorem log_reload {d : LogDocument Value} {id : LogId} {v : Value}
    (hd : (boundLog serde l schema).decode (ε := ε) b₀ = .ok d)
    (hnew : ∀ r ∈ d.records, r.id ≠ id)
    (hb : (boundLog serde l schema).encode (ε := ε) (Log.insertRecord d ⟨id,v⟩) = .ok b) :
    (v.tree.depth + 3 ≤ recursionLimit → (boundLog serde l schema).decode (ε := ε) b =
      .ok (Log.insertRecord d ⟨id,v⟩)) ∧
    (recursionLimit < v.tree.depth + 3 →
      ∃ e, (boundLog serde l schema).decode (ε := ε) b = .error e) := by
  obtain ⟨hs,hh,hinc⟩ := Log.decode_eq_ok.mp hd
  obtain ⟨hinc',hperm⟩ := Log.insertRecord_spec ⟨id,v⟩ hinc hnew
  constructor
  · intro hv
    have hrt : ∀ r ∈ (Log.insertRecord d ⟨id,v⟩).records, valueCodec.ReadsBack 3 r.value := by
      intro r hr
      rcases List.mem_cons.mp (hperm.mem_iff.mp hr) with rfl | hr
      · exact valueCodec_readsBack.mpr hv
      · exact LogDocument.fromSlice_depth hs r hr
    obtain ⟨b',hb',hdec⟩ := Log.encode_readsBack (ε := ε) (d := Log.insertRecord d ⟨id,v⟩)
      hrt hh hinc'
    obtain rfl : b = b' := Except.ok.inj (hb.symm.trans hb')
    exact hdec
  · intro hv
    cases hdec : (boundLog serde l schema).decode (ε := ε) b with
    | error e => exact ⟨e,rfl⟩
    | ok d' =>
        obtain ⟨j,hj,rfl⟩ := except_map_eq_ok.mp (except_mapError_eq_ok.mp hb)
        obtain ⟨j',hj',-⟩ := except_bind_eq_ok.mp (Log.decode_eq_ok.mp hdec).1
        obtain ⟨-,hlimit⟩ := serde.fromSlice_toVec_inv hj'
        have := LogDocument.serialize_depth hj ⟨id,v⟩ (hperm.mem_iff.mpr (List.mem_cons_self ..))
        simp only at this
        omega

theorem queue_reload {d : Queue.Document Value} {id : MessageId} {v : Value}
    (hd : (boundQueue serde l schema).decode (ε := ε) b₀ = .ok d)
    (hnew : ∀ m ∈ d.messages, m.id ≠ id)
    (hb : (boundQueue serde l schema).encode (ε := ε)
      (Queue.insertMessage d ⟨id,v,0,none⟩) = .ok b) :
    (v.tree.depth + 3 ≤ recursionLimit → (boundQueue serde l schema).decode (ε := ε) b =
      .ok (Queue.insertMessage d ⟨id,v,0,none⟩)) ∧
    (recursionLimit < v.tree.depth + 3 →
      ∃ e, (boundQueue serde l schema).decode (ε := ε) b = .error e) := by
  obtain ⟨hs,hh,hinc⟩ := Queue.decode_eq_ok.mp hd
  obtain ⟨hinc',before,rest,he,he'⟩ := Queue.insertMessage_spec ⟨id,v,0,none⟩ hinc hnew
  constructor
  · intro hv
    have hrt : ∀ m ∈ (Queue.insertMessage d ⟨id,v,0,none⟩).messages,
        valueCodec.ReadsBack 3 m.value := by
      intro m hm
      rw [he',List.mem_append,List.mem_cons] at hm
      rcases hm with hm | rfl | hm
      · exact Queue.Document.fromSlice_depth hs m (by simp [he,hm])
      · exact valueCodec_readsBack.mpr hv
      · exact Queue.Document.fromSlice_depth hs m (by simp [he,hm])
    obtain ⟨b',hb',hdec⟩ := Queue.encode_readsBack (ε := ε)
      (d := Queue.insertMessage d ⟨id,v,0,none⟩) hrt hh hinc'
    obtain rfl : b = b' := Except.ok.inj (hb.symm.trans hb')
    exact hdec
  · intro hv
    cases hdec : (boundQueue serde l schema).decode (ε := ε) b with
    | error e => exact ⟨e,rfl⟩
    | ok d' =>
        obtain ⟨j,hj,rfl⟩ := except_map_eq_ok.mp (except_mapError_eq_ok.mp hb)
        obtain ⟨j',hj',-⟩ := except_bind_eq_ok.mp (Queue.decode_eq_ok.mp hdec).1
        obtain ⟨-,hlimit⟩ := serde.fromSlice_toVec_inv hj'
        have := Queue.Document.serialize_depth hj ⟨id,v,0,none⟩ (by simp [he'])
        simp only at this
        omega

end Documents

section Reads

variable {ε : Type}

structure MapShows (node : Binding ε) (S : ObjectStore ε) (s : S.State) (map : Map Value)
    (entries : SortedMap String Value) : Prop where
  get : ∀ (st st' : State) (reader : UInt32) (key : String) (i : ℕ) (h : List (Sigma (Reply ε)))
    (s' : S.State) (r : Except NapiError String), st.maps reader = some map →
    Solo S.Env i s (node.execute st (.mapGet reader key)) h s' (r,st') →
    (∀ x ∈ h, ¬ storeFailed x) → r = .ok (node.mapText (.value (entries.get? key)))
  entries : ∀ (st st' : State) (reader : UInt32) (i : ℕ) (h : List (Sigma (Reply ε)))
    (s' : S.State) (r : Except NapiError String), st.maps reader = some map →
    Solo S.Env i s (node.execute st (.mapEntries reader)) h s' (r,st') →
    (∀ x ∈ h, ¬ storeFailed x) → r = .ok (node.mapText (.entries entries.entries))

structure LogShows (node : Binding ε) (S : ObjectStore ε) (s : S.State) (log : Log Value)
    (records : List (Record Value)) : Prop where
  get : ∀ (st st' : State) (reader : UInt32) (text : String) (id : LogId) (i : ℕ)
    (h : List (Sigma (Reply ε))) (s' : S.State) (r : Except NapiError String),
    st.logs reader = some log → node.serde.parseUuid text = some id →
    Solo S.Env i s (node.execute st (.logGet reader text)) h s' (r,st') →
    (∀ x ∈ h, ¬ storeFailed x) →
    r = .ok (node.logText (.record (records.find? (fun r => r.id = id))))
  recordsAfter : ∀ (st st' : State) (reader : UInt32) (text : String) (id : LogId) (i : ℕ)
    (h : List (Sigma (Reply ε))) (s' : S.State) (r : Except NapiError String),
    st.logs reader = some log → node.serde.parseUuid text = some id →
    Solo S.Env i s (node.execute st (.logRecordsAfter reader text)) h s' (r,st') →
    (∀ x ∈ h, ¬ storeFailed x) →
    r = .ok (node.logText (.records (records.filter (fun r => id < r.id))))
  records : ∀ (st st' : State) (reader : UInt32) (i : ℕ) (h : List (Sigma (Reply ε)))
    (s' : S.State) (r : Except NapiError String), st.logs reader = some log →
    Solo S.Env i s (node.execute st (.logRecords reader)) h s' (r,st') →
    (∀ x ∈ h, ¬ storeFailed x) → r = .ok (node.logText (.records records))

-- The values of a queue are what `read` hands to every later claim.
structure QueueShows (node : Binding ε) (S : ObjectStore ε) (s : S.State) (queue : Queue Value)
    (messages : List (Message Value)) : Prop where
  len : ∀ (st st' : State) (reader : UInt32) (i : ℕ) (h : List (Sigma (Reply ε)))
    (s' : S.State) (r : Except NapiError String), st.queues reader = some queue →
    Solo S.Env i s (node.execute st (.queueLen reader)) h s' (r,st') →
    (∀ x ∈ h, ¬ storeFailed x) → r = .ok (node.queueText (.len messages.length))
  read : ∀ (i : ℕ) (h : List (Sigma (Reply ε))) (s' : S.State)
    (r : Except (Queue.Error ε) (Version × Queue.Document Value)),
    Solo S.Env i s queue.read.run h s' r → (∀ x ∈ h, ¬ storeFailed x) →
    ∃ version document, r = .ok (version,document) ∧ document.messages = messages

variable {self : Binding ε} {S : ObjectStore ε} {s s' : S.State} {st st' : State} {i : ℕ}
  {h : List (Sigma (Reply ε))} {handle : UInt32} {r : Except NapiError String}

theorem answer_iff {Err α : Type} {text : α → String} {fail : Err → NapiError}
    {p : Action ε (Except Err α)} :
    Solo S.Env i s (keep st (answer text fail p)) h s' (r,st') ↔
      ∃ x, Solo S.Env i s p h s' x ∧ r = (x.map text).mapError fail ∧ st' = st := by
  rw [keep,Solo.map_iff]
  constructor
  · rintro ⟨r',hs,he⟩
    obtain ⟨rfl,rfl⟩ := Prod.mk.inj he
    obtain ⟨x,hx,rfl⟩ := Solo.map_iff.mp hs
    exact ⟨x,hx,rfl,rfl⟩
  · rintro ⟨x,hx,rfl,rfl⟩
    exact ⟨_,Solo.map_iff.mpr ⟨x,hx,rfl⟩,rfl⟩

theorem map_solo {map : Map Value} {op : Map.Op Value} (hm : st.maps handle = some map) :
    Solo S.Env i s (keep st (self.onMap st handle (.ok op))) h s' (r,st') ↔
      ∃ x, Solo S.Env i s ((Map.procedure op).program map.medium) h s' x ∧
        r = (x.map self.mapText).mapError self.operationError ∧ st' = st := by
  have hop : self.onMap st handle (.ok op) =
      answer self.mapText self.operationError (map.perform op) := by
    simp [onMap,hm]
  rw [hop,answer_iff,Map.perform_eq]

theorem log_solo {log : Log Value} {op : Log.Op Value} (hm : st.logs handle = some log) :
    Solo S.Env i s (keep st (self.onLog st handle (.ok op))) h s' (r,st') ↔
      ∃ x, Solo S.Env i s ((Log.procedure op).program log.medium) h s' x ∧
        r = (x.map self.logText).mapError self.operationError ∧ st' = st := by
  have hop : self.onLog st handle (.ok op) =
      answer self.logText self.operationError (log.perform op) := by
    simp [onLog,hm]
  rw [hop,answer_iff,Log.perform_eq]

theorem queue_solo {queue : Queue Value} {op : Queue.Op Value}
    (hm : st.queues handle = some queue) :
    Solo S.Env i s (keep st (self.onQueue st handle (.ok op))) h s' (r,st') ↔
      ∃ x, Solo S.Env i s ((Queue.procedure op).program queue.medium) h s' x ∧
        r = (x.map self.queueText).mapError self.queueError ∧ st' = st := by
  have hop : self.onQueue st handle (.ok op) =
      answer self.queueText self.queueError (queue.perform op) := by
    simp [onQueue,hm]
  rw [hop,answer_iff,Queue.perform_eq]

theorem MapShows.of_decode {map : Map Value} {o : Object} {d : OwnedMapDocument Value}
    (ho : S.objects s map.location = some o) (hd : map.decode (ε := ε) o.bytes = .ok d) :
    self.MapShows S s map d.entries := by
  have hsnap : (map.medium (ε := ε)).snapshot (.ok (S.objects s map.location)) =
      .ok (o.version,d) := by
    simp [Medium.snapshot,ho,Map.medium,hd]
  constructor
  · intro st st' reader key i h s' r hm hs hok
    obtain ⟨x,hx,rfl,-⟩ := (map_solo hm).mp hs
    have hread := solo_read hx hok
    rw [show (map.medium (ε := ε)).location = map.location from rfl,hsnap] at hread
    rw [hread]
    rfl
  · intro st st' reader i h s' r hm hs hok
    obtain ⟨x,hx,rfl,-⟩ := (map_solo hm).mp hs
    have hread := solo_read hx hok
    rw [show (map.medium (ε := ε)).location = map.location from rfl,hsnap] at hread
    rw [hread]
    rfl

theorem LogShows.of_decode {log : Log Value} {o : Object} {d : LogDocument Value}
    (ho : S.objects s log.location = some o) (hd : log.decode (ε := ε) o.bytes = .ok d) :
    self.LogShows S s log d.records := by
  have hsnap : (log.medium (ε := ε)).snapshot (.ok (S.objects s log.location)) =
      .ok (o.version,d) := by
    simp [Medium.snapshot,ho,Log.medium,hd]
  have hinc := (Log.decode_eq_ok.mp hd).2.2
  constructor
  · intro st st' reader text id i h s' r hm ht hs hok
    have hid : self.parseLogId text = .ok id := by
      simp [parseLogId,parseId,ht]
    simp only [execute,hid,except_map_ok] at hs
    obtain ⟨x,hx,rfl,-⟩ := (log_solo hm).mp hs
    have hread := solo_read hx hok
    rw [show (log.medium (ε := ε)).location = log.location from rfl,hsnap] at hread
    rw [hread,← Log.lookup_eq hinc]
    rfl
  · intro st st' reader text id i h s' r hm ht hs hok
    have hid : self.parseLogId text = .ok id := by
      simp [parseLogId,parseId,ht]
    simp only [execute,hid,except_map_ok] at hs
    obtain ⟨x,hx,rfl,-⟩ := (log_solo hm).mp hs
    have hread := solo_read hx hok
    rw [show (log.medium (ε := ε)).location = log.location from rfl,hsnap] at hread
    rw [hread,← Log.after_eq hinc]
    rfl
  · intro st st' reader i h s' r hm hs hok
    obtain ⟨x,hx,rfl,-⟩ := (log_solo hm).mp hs
    have hread := solo_read hx hok
    rw [show (log.medium (ε := ε)).location = log.location from rfl,hsnap] at hread
    rw [hread]
    rfl

theorem QueueShows.of_decode {queue : Queue Value} {o : Object} {d : Queue.Document Value}
    (ho : S.objects s queue.location = some o) (hd : queue.decode (ε := ε) o.bytes = .ok d) :
    self.QueueShows S s queue d.messages := by
  have hsnap : (queue.medium (ε := ε)).snapshot (.ok (S.objects s queue.location)) =
      .ok (o.version,d) := by
    simp [Medium.snapshot,ho,Queue.medium,hd]
  constructor
  · intro st st' reader i h s' r hm hs hok
    obtain ⟨x,hx,rfl,-⟩ := (queue_solo hm).mp hs
    have hread := solo_read hx hok
    rw [show (queue.medium (ε := ε)).location = queue.location from rfl,hsnap] at hread
    rw [hread]
    rfl
  · intro i h s' r hs hok
    rw [Queue.read_run] at hs
    obtain ⟨reply,h',s₁,rfl,henv,hn⟩ := Solo.perform_iff.mp hs
    obtain ⟨rfl,rfl,rfl⟩ := Solo.done_iff.mp hn
    rcases henv.atomic.got_inv with rfl | ⟨source,rfl⟩
    · exact ⟨o.version,d,hsnap,rfl⟩
    · exact absurd ⟨source,rfl⟩ (hok _ (List.mem_cons_self ..))

end Reads

section Claim

inductive Write where
  | mapInsert (key : String)
  | mapInsertIfAbsent (key : String)
  | logAppend
  | queuePublish

def Write.levels : Write → ℕ
  | .mapInsert _ => 2
  | .mapInsertIfAbsent _ => 2
  | .logAppend => 3
  | .queuePublish => 3

def MapStays (serde : Serde) (op : UInt32 → String → Operation)
    (admits : SortedMap String Value → Prop) (key : String) (v : Value) : Prop :=
  ∀ (ε : Type) (self : Binding ε) (S : ObjectStore ε) (l : Location) (schema : String)
    (s s' : S.State) (o : Object) (d : OwnedMapDocument Value) (text : String) (st st' : State)
    (handle : UInt32) (i : ℕ) (h : List (Sigma (Reply ε))) (out : String),
    self.serde = serde → S.objects s l = some o →
    (boundMap serde l schema).decode (ε := ε) o.bytes = .ok d → admits d.entries →
    self.parseValue text = .ok v → st.maps handle = some (boundMap serde l schema) →
    Solo S.Env i s (self.execute st (op handle text)) h s' (.ok out,st') →
    self.MapShows S s' (boundMap serde l schema) (d.entries.insert key v)

def LogStays (serde : Serde) (v : Value) : Prop :=
  ∀ (ε : Type) (self : Binding ε) (S : ObjectStore ε) (l : Location) (schema : String)
    (s s' : S.State) (o : Object) (d : LogDocument Value) (text : String) (st st' : State)
    (handle : UInt32) (i : ℕ) (h : List (Sigma (Reply ε))) (out : String),
    self.serde = serde → S.objects s l = some o →
    (boundLog serde l schema).decode (ε := ε) o.bytes = .ok d →
    (∀ id ∈ identifiers h, ∀ r ∈ d.records, r.id ≠ id) →
    self.parseValue text = .ok v → st.logs handle = some (boundLog serde l schema) →
    Solo S.Env i s (self.execute st (.logAppend handle text)) h s' (.ok out,st') →
    ∃ id, out = self.logText (.appended id) ∧
      self.LogShows S s' (boundLog serde l schema) (Log.insertRecord d ⟨id,v⟩).records

def QueueStays (serde : Serde) (v : Value) : Prop :=
  ∀ (ε : Type) (self : Binding ε) (S : ObjectStore ε) (l : Location) (schema : String)
    (s s' : S.State) (o : Object) (d : Queue.Document Value) (text : String) (st st' : State)
    (handle : UInt32) (i : ℕ) (h : List (Sigma (Reply ε))) (out : String),
    self.serde = serde → S.objects s l = some o →
    (boundQueue serde l schema).decode (ε := ε) o.bytes = .ok d →
    (∀ id ∈ identifiers h, ∀ m ∈ d.messages, m.id ≠ id) →
    self.parseValue text = .ok v → st.queues handle = some (boundQueue serde l schema) →
    Solo S.Env i s (self.execute st (.queuePublish handle text)) h s' (.ok out,st') →
    ∃ id, out = self.queueText (.published id) ∧
      self.QueueShows S s' (boundQueue serde l schema)
        (Queue.insertMessage d ⟨id,v,0,none⟩).messages

-- The accepted value is what every later uncontended read answers with, next to all that was
-- stored before. An occupied `insert_if_absent` accepts nothing.
def Stays (serde : Serde) : Write → Value → Prop
  | .mapInsert key => MapStays serde (.mapInsert · key ·) (fun _ => True) key
  | .mapInsertIfAbsent key =>
      MapStays serde (.mapInsertIfAbsent · key ·) (fun entries => entries.get? key = none) key
  | .logAppend => LogStays serde
  | .queuePublish => QueueStays serde

variable {ε : Type} {self : Binding ε}

theorem parseValue_depth {text : String} {v : Value} (h : self.parseValue text = .ok v) :
    v.tree.depth ≤ recursionLimit := by
  obtain ⟨j,hj,rfl⟩ := except_map_eq_ok.mp (except_mapError_eq_ok.mp h)
  exact j.toValue_depth_le.trans (self.serde.fromText_depth hj)

theorem parseValue_toText {v : Value} (h : v.tree.depth ≤ recursionLimit) :
    self.parseValue (self.serde.toText v.tree) = .ok v := by
  rw [parseValue,self.serde.fromText_toText _ h,except_map_ok,except_mapError_ok,v.value_tree]

theorem execute_insert {v : Value} {key : String} (self : Binding ε) (st : State)
    (handle : UInt32) (text : String) (hp : self.parseValue text = .ok v) :
    self.execute st (.mapInsert handle key text) =
      keep st (self.onMap st handle (.ok (.insert key v))) := by
  simp only [execute,hp,except_map_ok]

theorem execute_insertIfAbsent {v : Value} {key : String} (self : Binding ε) (st : State)
    (handle : UInt32) (text : String) (hp : self.parseValue text = .ok v) :
    self.execute st (.mapInsertIfAbsent handle key text) =
      keep st (self.onMap st handle (.ok (.insertIfAbsent key v))) := by
  simp only [execute,hp,except_map_ok]

theorem map_accepted {S : ObjectStore ε} {map : Map Value} {s s' : S.State} {o : Object}
    {d : OwnedMapDocument Value} {key : String} {v : Value} {op : Map.Op Value} {i : ℕ}
    {h : List (Sigma (Reply ε))} {a : Map.Outcome Value}
    (hop : op = .insert key v ∨ op = .insertIfAbsent key v ∧ d.entries.get? key = none)
    (ho : S.objects s map.location = some o) (hd : map.decode (ε := ε) o.bytes = .ok d)
    (hs : Solo S.Env i s ((Map.procedure op).program map.medium) h s' (.ok a)) :
    ∃ b version, map.encode (ε := ε) { d with entries := d.entries.insert key v } = .ok b ∧
      S.objects s' map.location = some ⟨b,version⟩ := by
  rcases hop with rfl | ⟨rfl,hk⟩
  · rcases solo_transact hs ho hd with ⟨source,he,-⟩ | ⟨s₁,h₁,r,rfl,hobj,hn⟩
    · simp at he
    · obtain ⟨b,version,hb,-,hobj',-⟩ := solo_commit hn
      exact ⟨b,version,hb,hobj'⟩
  · rcases solo_transact hs ho hd with ⟨source,he,-⟩ | ⟨s₁,h₁,r,rfl,hobj,hn⟩
    · simp at he
    · simp only [hk] at hn
      obtain ⟨b,version,hb,-,hobj',-⟩ := solo_commit hn
      rw [SortedMap.erase_of_get?_eq_none hk] at hb
      exact ⟨b,version,hb,hobj'⟩

theorem map_stays {serde : Serde} {key : String} {v : Value} {op : UInt32 → String → Operation}
    {admits : SortedMap String Value → Prop} {mapOp : Map.Op Value}
    (hexec : ∀ {ε : Type} (self : Binding ε) (st : State) (handle : UInt32) (text : String),
      self.parseValue text = .ok v →
      self.execute st (op handle text) = keep st (self.onMap st handle (.ok mapOp)))
    (hop : ∀ entries, admits entries → mapOp = .insert key v ∨
      mapOp = .insertIfAbsent key v ∧ entries.get? key = none)
    (hv : v.tree.depth + 2 ≤ recursionLimit) : MapStays serde op admits key v := by
  intro ε self S l schema s s' o d text st st' handle i h out hserde ho hd ha hp hm hs
  subst hserde
  rw [hexec self st handle text hp] at hs
  obtain ⟨x,hx,hr,-⟩ := (map_solo hm).mp hs
  cases x with
  | error e => simp at hr
  | ok a =>
      obtain ⟨b,version,hb,hobj⟩ := map_accepted (hop _ ha) ho hd hx
      exact MapShows.of_decode (d := { d with entries := d.entries.insert key v }) hobj
        ((map_reload hd hb).1 hv)

theorem log_stays {serde : Serde} {v : Value} (hv : v.tree.depth + 3 ≤ recursionLimit) :
    LogStays serde v := by
  intro ε self S l schema s s' o d text st st' handle i h out hserde ho hd hnew hp hm hs
  subst hserde
  simp only [execute,hp,except_map_ok] at hs
  obtain ⟨x,hx,hr,-⟩ := (log_solo hm).mp hs
  cases x with
  | error e => simp at hr
  | ok a =>
      rcases solo_transact hx ho hd with ⟨source,he,-⟩ | ⟨s₁,h₁,r,rfl,hobj,hn⟩
      · simp at he
      · obtain ⟨id,h₂,rfl,hc⟩ := solo_generate hn
        obtain ⟨b,version,hb,rfl,hobj',-⟩ := solo_commit hc
        have hfresh : ∀ r ∈ d.records, r.id ≠ id := hnew id (by simp [identifiers,identifier])
        refine ⟨id,Except.ok.inj hr,?_⟩
        exact LogShows.of_decode hobj' ((log_reload hd hfresh hb).1 hv)

theorem queue_stays {serde : Serde} {v : Value} (hv : v.tree.depth + 3 ≤ recursionLimit) :
    QueueStays serde v := by
  intro ε self S l schema s s' o d text st st' handle i h out hserde ho hd hnew hp hm hs
  subst hserde
  simp only [execute,hp,except_map_ok] at hs
  obtain ⟨x,hx,hr,-⟩ := (queue_solo hm).mp hs
  cases x with
  | error e => simp at hr
  | ok a =>
      rcases solo_transact hx ho hd with ⟨source,he,-⟩ | ⟨s₁,h₁,r,rfl,hobj,hn⟩
      · simp at he
      · obtain ⟨id,h₂,rfl,hc⟩ := solo_generate hn
        obtain ⟨b,version,hb,rfl,hobj',-⟩ := solo_commit hc
        have hfresh : ∀ m ∈ d.messages, m.id ≠ id := hnew id (by simp [identifiers,identifier])
        refine ⟨id,Except.ok.inj hr,?_⟩
        exact QueueShows.of_decode hobj' ((queue_reload hd hfresh hb).1 hv)

section Failures

variable {serde : Serde} {v : Value}

-- What a worker holds after its first call has created the structure of handle 1.
def holdingMap (map : Map Value) : State :=
  { State.new "shop" with nextHandle := 2, maps := Function.update (fun _ => none) 1 (some map) }

def holdingLog (log : Log Value) : State :=
  { State.new "shop" with nextHandle := 2, logs := Function.update (fun _ => none) 1 (some log) }

def holdingQueue (queue : Queue Value) : State :=
  { State.new "shop" with
    nextHandle := 2, queues := Function.update (fun _ => none) 1 (some queue) }

theorem holdingMap_maps (map : Map Value) : (holdingMap map).maps 1 = some map := by
  simp [holdingMap]

theorem holdingLog_logs (log : Log Value) : (holdingLog log).logs 1 = some log := by
  simp [holdingLog]

theorem holdingQueue_queues (queue : Queue Value) : (holdingQueue queue).queues 1 = some queue := by
  simp [holdingQueue]

theorem map_encodes {ε : Type} (map : Map Value) (hc : map.codec = valueCodec)
    (d : OwnedMapDocument Value) : ∃ b, map.encode (ε := ε) d = .ok b := by
  obtain ⟨members,hm⟩ : ∃ members, d.entries.entries.mapM (fun p : String × Value =>
      (valueCodec.serialize p.2).map (p.1,·)) = .ok members :=
    mapM_total (fun p _ => ⟨_,rfl⟩)
  exact ⟨_,by rw [Map.encode,hc,OwnedMapDocument.serialize,serializeEntries,hm]; rfl⟩

theorem log_encodes {ε : Type} (log : Log Value) (hc : log.codec = valueCodec)
    (d : LogDocument Value) : ∃ b, log.encode (ε := ε) d = .ok b :=
  Log.encode_total (hc ▸ valueCodec_faithful) d

theorem queue_encodes {ε : Type} (queue : Queue Value) (hc : queue.codec = valueCodec)
    (d : Queue.Document Value) : ∃ b, queue.encode (ε := ε) d = .ok b := by
  obtain ⟨items,hi⟩ : ∃ items,
      d.messages.mapM (Message.serialize queue.serde valueCodec) = .ok items :=
    mapM_total (fun m _ => ⟨_,rfl⟩)
  exact ⟨_,by rw [Queue.encode,hc,Queue.Document.serialize,hi]; rfl⟩

theorem map_inserts {map : Map Value} {s : Memory.State} {o : Object}
    {d : OwnedMapDocument Value} {key : String} {op : Map.Op Value} {b : Bytes}
    (hop : op = .insert key v ∨ op = .insertIfAbsent key v ∧ d.entries.get? key = none)
    (ho : s.objects map.location = some o) (hd : map.decode (ε := Empty) o.bytes = .ok d)
    (hb : map.encode (ε := Empty) { d with entries := d.entries.insert key v } = .ok b) :
    ∃ h a, Solo Memory.store.Env 0 s ((Map.procedure op).program map.medium) h
      (replaced s map.location b) (.ok a) := by
  rcases hop with rfl | ⟨rfl,hk⟩
  · exact ⟨_,_,memory_transact ho hd (memory_commit ho hb)⟩
  · refine ⟨_ :: ?_,.insertIfAbsent (.inserted s.version.1),memory_transact ho hd ?_⟩
    · exact [⟨.store (.replace map.location o.version b),.replaced s.version.1⟩]
    · simp only [hk,SortedMap.erase_of_get?_eq_none hk]
      exact memory_commit ho hb

theorem map_breaks {key : String} {op : UInt32 → String → Operation}
    {admits : SortedMap String Value → Prop} {mapOp : Map.Op Value}
    (hexec : ∀ {ε : Type} (self : Binding ε) (st : State) (handle : UInt32) (text : String),
      self.parseValue text = .ok v →
      self.execute st (op handle text) = keep st (self.onMap st handle (.ok mapOp)))
    (hop : mapOp = .insert key v ∨ mapOp = .insertIfAbsent key v)
    (ha : admits .empty) (hlimit : v.tree.depth ≤ recursionLimit)
    (hdeep : recursionLimit < v.tree.depth + 2) : ¬ MapStays serde op admits key v := by
  intro hstays
  let l : Location := ⟨"shop/maps/orders.json",by decide⟩
  let map := boundMap serde l "v1"
  let d : OwnedMapDocument Value := ⟨⟨Core.FORMAT_VERSION,"map","v1"⟩,.empty⟩
  obtain ⟨b₀,-,hd⟩ : ∃ b, map.encode (ε := Empty) d = .ok b ∧ map.decode (ε := Empty) b = .ok d :=
    Map.encode_readsBack (by simp [d]) rfl
  have ho : (stocked l b₀).objects map.location = some ⟨b₀,⟨"1"⟩⟩ := stocked_objects l b₀
  have hst : (holdingMap map).maps 1 = some map := holdingMap_maps map
  obtain ⟨b,hb⟩ := map_encodes (ε := Empty) map rfl { d with entries := d.entries.insert key v }
  obtain ⟨h,a,hrun⟩ := map_inserts (hop.imp_right (⟨·,rfl⟩)) ho hd hb
  obtain ⟨e,he⟩ := (map_reload hd hb).2 hdeep
  have hmiss : Solo Memory.store.Env 0 (replaced (stocked l b₀) l b)
      ((Map.procedure (.get key)).program map.medium) _ _ (.error e) :=
    memory_missed (replaced_objects ..) he
  have hparse : (plain serde).parseValue (serde.toText v.tree) = .ok v := parseValue_toText hlimit
  have hwrite : Solo Memory.store.Env 0 (stocked l b₀)
      ((plain serde).execute (holdingMap map) (op 1 (serde.toText v.tree))) h
      (replaced (stocked l b₀) l b) (.ok ((plain serde).mapText a),holdingMap map) := by
    rw [hexec (plain serde) (holdingMap map) 1 _ hparse]
    exact (map_solo hst).mpr ⟨_,hrun,rfl,rfl⟩
  have hread : Solo Memory.store.Env 0 (replaced (stocked l b₀) l b)
      ((plain serde).execute (holdingMap map) (.mapGet 1 key)) _ _
      (.error ((plain serde).operationError e),holdingMap map) :=
    (map_solo hst).mpr ⟨_,hmiss,rfl,rfl⟩
  have hshow := hstays Empty (plain serde) Memory.store l "v1" (stocked l b₀)
    (replaced (stocked l b₀) l b) _ d _ _ _ 1 0 h _ rfl ho hd ha hparse hst hwrite
  have := hshow.1 _ _ 1 key 0 _ _ _ hst hread (by simp [storeFailed])
  simp at this

theorem log_breaks (hlimit : v.tree.depth ≤ recursionLimit)
    (hdeep : recursionLimit < v.tree.depth + 3) : ¬ LogStays serde v := by
  intro hstays
  let l : Location := ⟨"shop/logs/audit.json",by decide⟩
  let log := boundLog serde l "v1"
  let d : LogDocument Value := ⟨⟨Core.FORMAT_VERSION,"log","v1"⟩,[]⟩
  obtain ⟨b₀,-,hd⟩ : ∃ b, log.encode (ε := Empty) d = .ok b ∧ log.decode (ε := Empty) b = .ok d :=
    Log.encode_readsBack (by simp [d]) rfl .nil
  have ho : (stocked l b₀).objects log.location = some ⟨b₀,⟨"1"⟩⟩ := stocked_objects l b₀
  have hst : (holdingLog log).logs 1 = some log := holdingLog_logs log
  obtain ⟨b,hb⟩ := log_encodes (ε := Empty) log rfl (Log.insertRecord d ⟨0,v⟩)
  obtain ⟨e,he⟩ := (log_reload hd (by simp [d]) hb).2 hdeep
  have hrun : Solo Memory.store.Env 0 (stocked l b₀)
      ((Log.procedure (.append v)).program log.medium) _ _ (.ok (.appended 0)) :=
    memory_transact ho hd (memory_generate 0 (memory_commit ho hb))
  have hmiss : Solo Memory.store.Env 0 (replaced (stocked l b₀) l b)
      ((Log.procedure .records).program log.medium) _ _ (.error e) :=
    memory_missed (replaced_objects ..) he
  have hparse : (plain serde).parseValue (serde.toText v.tree) = .ok v := parseValue_toText hlimit
  have hexec : (plain serde).execute (holdingLog log) (.logAppend 1 (serde.toText v.tree)) =
      keep (holdingLog log) ((plain serde).onLog (holdingLog log) 1 (.ok (.append v))) := by
    simp only [execute,hparse,except_map_ok]
  have hwrite : Solo Memory.store.Env 0 (stocked l b₀)
      (keep (holdingLog log) ((plain serde).onLog (holdingLog log) 1 (.ok (.append v)))) _ _
      (.ok ((plain serde).logText (.appended 0)),holdingLog log) :=
    (log_solo hst).mpr ⟨_,hrun,rfl,rfl⟩
  rw [← hexec] at hwrite
  have hread : Solo Memory.store.Env 0 (replaced (stocked l b₀) l b)
      ((plain serde).execute (holdingLog log) (.logRecords 1)) _ _
      (.error ((plain serde).operationError e),holdingLog log) :=
    (log_solo hst).mpr ⟨_,hmiss,rfl,rfl⟩
  obtain ⟨id,-,hshow⟩ := hstays Empty (plain serde) Memory.store l "v1" (stocked l b₀)
    (replaced (stocked l b₀) l b) _ d _ _ _ 1 0 _ _ rfl ho hd (by simp [d]) hparse hst hwrite
  have := hshow.records _ _ 1 0 _ _ _ hst hread (by simp [storeFailed])
  simp at this

theorem queue_breaks (hlimit : v.tree.depth ≤ recursionLimit)
    (hdeep : recursionLimit < v.tree.depth + 3) : ¬ QueueStays serde v := by
  intro hstays
  let l : Location := ⟨"shop/queues/jobs.json",by decide⟩
  let queue := boundQueue serde l "v1"
  let d : Queue.Document Value := ⟨⟨Queue.FORMAT_VERSION,Queue.KIND,"v1"⟩,[]⟩
  obtain ⟨b₀,-,hd⟩ : ∃ b, queue.encode (ε := Empty) d = .ok b ∧
      queue.decode (ε := Empty) b = .ok d :=
    Queue.encode_readsBack (by simp [d]) rfl .nil
  have ho : (stocked l b₀).objects queue.location = some ⟨b₀,⟨"1"⟩⟩ := stocked_objects l b₀
  have hst : (holdingQueue queue).queues 1 = some queue := holdingQueue_queues queue
  obtain ⟨b,hb⟩ := queue_encodes (ε := Empty) queue rfl (Queue.insertMessage d ⟨0,v,0,none⟩)
  obtain ⟨e,he⟩ := (queue_reload hd (by simp [d]) hb).2 hdeep
  have hrun : Solo Memory.store.Env 0 (stocked l b₀)
      ((Queue.procedure (.publish v)).program queue.medium) _ _ (.ok (.published 0)) :=
    memory_transact ho hd (memory_generate 0 (memory_commit ho hb))
  have hmiss : Solo Memory.store.Env 0 (replaced (stocked l b₀) l b)
      ((Queue.procedure .len).program queue.medium) _ _ (.error e) :=
    memory_missed (replaced_objects ..) he
  have hparse : (plain serde).parseValue (serde.toText v.tree) = .ok v := parseValue_toText hlimit
  have hexec : (plain serde).execute (holdingQueue queue) (.queuePublish 1 (serde.toText v.tree)) =
      keep (holdingQueue queue) ((plain serde).onQueue (holdingQueue queue) 1 (.ok (.publish v))) := by
    simp only [execute,hparse,except_map_ok]
  have hwrite : Solo Memory.store.Env 0 (stocked l b₀)
      (keep (holdingQueue queue) ((plain serde).onQueue (holdingQueue queue) 1 (.ok (.publish v))))
      _ _ (.ok ((plain serde).queueText (.published 0)),holdingQueue queue) :=
    (queue_solo hst).mpr ⟨_,hrun,rfl,rfl⟩
  rw [← hexec] at hwrite
  have hread : Solo Memory.store.Env 0 (replaced (stocked l b₀) l b)
      ((plain serde).execute (holdingQueue queue) (.queueLen 1)) _ _
      (.error ((plain serde).queueError e),holdingQueue queue) :=
    (queue_solo hst).mpr ⟨_,hmiss,rfl,rfl⟩
  obtain ⟨id,-,hshow⟩ := hstays Empty (plain serde) Memory.store l "v1" (stocked l b₀)
    (replaced (stocked l b₀) l b) _ d _ _ _ 1 0 _ _ rfl ho hd (by simp [d]) hparse hst hwrite
  have := hshow.1 _ _ 1 0 _ _ _ hst hread (by simp [storeFailed])
  simp at this

end Failures

theorem accepted_stays_readable_iff (serde : Serde) (write : Write) (v : Value) :
    Stays serde write v ↔
      v.tree.depth + write.levels ≤ recursionLimit ∨ recursionLimit < v.tree.depth := by
  by_cases hlimit : v.tree.depth ≤ recursionLimit
  · have hcondition : v.tree.depth + write.levels ≤ recursionLimit ∨ recursionLimit < v.tree.depth ↔
        v.tree.depth + write.levels ≤ recursionLimit := by
      omega
    rw [hcondition]
    constructor
    · intro hstays
      by_contra hdeep
      rw [not_le] at hdeep
      refine absurd hstays ?_
      cases write with
      | mapInsert key =>
          rw [Stays]
          exact map_breaks execute_insert (.inl rfl) trivial hlimit hdeep
      | mapInsertIfAbsent key =>
          rw [Stays]
          exact map_breaks execute_insertIfAbsent (.inr rfl) rfl hlimit hdeep
      | logAppend => exact log_breaks hlimit hdeep
      | queuePublish => exact queue_breaks hlimit hdeep
    · intro hv
      cases write with
      | mapInsert key =>
          rw [Stays]
          exact map_stays execute_insert (fun entries _ => .inl rfl) hv
      | mapInsertIfAbsent key =>
          rw [Stays]
          exact map_stays execute_insertIfAbsent (fun entries ha => .inr ⟨rfl,ha⟩) hv
      | logAppend => exact log_stays hv
      | queuePublish => exact queue_stays hv
  -- Nothing this deep gets past `parse_value`, so nothing is accepted.
  · refine iff_of_true ?_ (.inr (not_le.mp hlimit))
    cases write with
    | mapInsert key | mapInsertIfAbsent key =>
        intro ε self S l schema s s' o d text st st' handle i h out hserde ho hd ha hp
        exact absurd (parseValue_depth hp) hlimit
    | logAppend | queuePublish =>
        intro ε self S l schema s s' o d text st st' handle i h out hserde ho hd hnew hp
        exact absurd (parseValue_depth hp) hlimit

theorem deep_insert_breaks_map :
    ¬ Stays compact (.mapInsert "order") ⟨nested 126,nested_isValue 126⟩ := by
  rw [Stays]
  refine map_breaks execute_insert (.inl rfl) trivial ?_ ?_
  · simp [nested_depth,recursionLimit]
  · simp [nested_depth,recursionLimit]

end Claim

end Binding

end Objsds
