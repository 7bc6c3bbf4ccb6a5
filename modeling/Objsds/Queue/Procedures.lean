import Objsds.Queue.Operations

namespace Objsds

open Foundation

namespace Queue

variable {ε V : Type}

def decode (self : Queue V) (bytes : Bytes) : Except (Error ε) (Document V) := do
  let document ← (Document.fromSlice self.serde self.codec bytes).mapError Error.document
  validate document self.schema
  return document

def encode (self : Queue V) (document : Document V) : Except (Error ε) Bytes :=
  ((document.serialize self.serde self.codec).map self.serde.toVec).mapError .document

def medium (self : Queue V) : Medium (Document V) (Error ε) ε where
  location := self.location
  decode := self.decode
  encode := self.encode
  notFound := .notFound
  storeError := .store
  conflict := .conflict

def insertMessage (document : Document V) (message : Message V) : Document V :=
  let index := partitionPoint document.messages (fun m => m.id < message.id)
  { document with messages := document.messages.insertIdx index message }

def leased (message : Message V) (attempts : UInt32) (lease : Lease) : Message V :=
  { message with attempts := attempts, lease := some lease }

def claimPlan (now expiresAtMillis : UInt64) (d : Document V) :
    Plan (Document V) (Error ε) (Outcome V) :=
  match d.messages.findFinIdx? (available now) with
  | none => .respond (.ok (.claimed none))
  | some index => .generate (fun token =>
      let message := d.messages.get index
      match checkedAdd32 message.attempts 1 with
      | none => .respond (.error .attemptOverflow)
      | some attempts =>
          .commit { d with messages :=
              d.messages.set index (leased message attempts ⟨token,expiresAtMillis⟩) }
            (fun _ => .claimed (some ⟨message.id,message.value,token,attempts,expiresAtMillis⟩)))

def ackPlan (id : MessageId) (token : LeaseToken) (now : UInt64) (d : Document V) :
    Plan (Document V) (Error ε) (Outcome V) :=
  match binarySearchByKey d.messages id Message.id with
  | .error _ => .respond (.ok (.ack .notFound))
  | .ok index =>
      match d.messages[index]?.bind Message.lease with
      | none => .respond (.ok (.ack .leaseMismatch))
      | some lease =>
          if lease.token ≠ token then .respond (.ok (.ack .leaseMismatch))
          else if lease.expiresAtMillis ≤ now then .respond (.ok (.ack .leaseExpired))
          else .commit { d with messages := d.messages.eraseIdx index }
            (fun _ => .ack .acknowledged)

def procedure : Op V → Procedure (Document V) (Error ε) (Outcome V)
  | .publish value => .transact (fun d => .generate (fun id =>
      .commit (insertMessage d ⟨id,value,0,none⟩) (fun _ => .published id)))
  | .claim leaseDuration =>
      match (u64TryFrom leaseDuration.asMillis).filter (· > 0) with
      | none => .respond (.error .invalidLeaseDuration)
      | some leaseMillis => .clock (fun now =>
          match checkedAdd64 now leaseMillis with
          | none => .respond (.error .invalidLeaseDuration)
          | some expiresAtMillis => .transact (claimPlan now expiresAtMillis))
  | .ack id token => .clock (fun now => .transact (ackPlan id token now))
  | .len => .transact (fun d => .respond (.ok (.len d.messages.length)))
  | .isEmpty => .transact (fun d => .respond (.ok (.isEmpty (d.messages.length = 0))))

theorem procedure_claim {d : Duration} {leaseMillis now expiresAtMillis : UInt64}
    (hlease : (u64TryFrom d.asMillis).filter (· > 0) = some leaseMillis)
    (hadd : checkedAdd64 now leaseMillis = some expiresAtMillis) :
    ∃ next, (procedure (.claim d) : Procedure (Document V) (Error ε) (Outcome V)) =
      .clock next ∧ next now = .transact (claimPlan now expiresAtMillis) := by
  refine ⟨fun now => match checkedAdd64 now leaseMillis with
    | none => .respond (.error .invalidLeaseDuration)
    | some expiresAtMillis => .transact (claimPlan now expiresAtMillis),?_,?_⟩
  · simp only [procedure,hlease]
  · simp only [hadd]

theorem decode_eq_ok {self : Queue V} {b : Bytes} {d : Document V} :
    self.decode (ε := ε) b = .ok d ↔ Document.fromSlice self.serde self.codec b = .ok d ∧
      d.toHeader = ⟨FORMAT_VERSION,KIND,self.schema⟩ ∧ Increasing Message.id d.messages := by
  simp only [decode,except_bind_eq_ok,except_mapError_eq_ok,except_pure,Except.ok.injEq]
  constructor
  · rintro ⟨d,hd,⟨⟩,hv,rfl⟩
    exact ⟨hd,validate_eq_ok.mp hv⟩
  · rintro ⟨hd,hv⟩
    exact ⟨d,hd,(),validate_eq_ok.mpr hv,rfl⟩

theorem decode_header {self : Queue V} {b : Bytes} {d : Document V}
    (h : self.decode (ε := ε) b = .ok d) :
    ∃ j, self.serde.fromSlice b = .ok j ∧
      Header.deserialize j = .ok ⟨FORMAT_VERSION,KIND,self.schema⟩ := by
  obtain ⟨hs,hh,-⟩ := decode_eq_ok.mp h
  obtain ⟨j,hj,hd⟩ := except_bind_eq_ok.mp hs
  obtain ⟨header,hhead,hd⟩ := except_bind_eq_ok.mp hd
  obtain ⟨_,-,hd⟩ := except_bind_eq_ok.mp hd
  obtain rfl := Except.ok.inj hd
  exact ⟨j,hj,hhead.trans (congrArg _ hh)⟩

theorem encode_readsBack {self : Queue V} {d : Document V}
    (hrt : ∀ m ∈ d.messages, self.codec.ReadsBack 3 m.value)
    (hh : d.toHeader = ⟨FORMAT_VERSION,KIND,self.schema⟩)
    (hi : Increasing Message.id d.messages) :
    ∃ b, self.encode (ε := ε) d = .ok b ∧ self.decode (ε := ε) b = .ok d := by
  obtain ⟨j,hj,hd⟩ := Document.serialize_roundTrip self.serde d hrt
  exact ⟨self.serde.toVec j,by simp [encode,hj],decode_eq_ok.mpr ⟨hd,hh,hi⟩⟩

theorem encode_roundTrip {self : Queue V} (hrt : self.codec.RoundTrips 3) {d : Document V}
    (hh : d.toHeader = ⟨FORMAT_VERSION,KIND,self.schema⟩)
    (hi : Increasing Message.id d.messages) :
    ∃ b, self.encode (ε := ε) d = .ok b ∧ self.decode (ε := ε) b = .ok d :=
  encode_readsBack (fun m _ => hrt m.value) hh hi

theorem decode_reload {self : Queue V} {d d' : Document V} {b : Bytes}
    (hb : self.encode (ε := ε) d = .ok b) (hd : self.decode (ε := ε) b = .ok d') :
    d'.messages.map Message.ticket = d.messages.map Message.ticket := by
  rw [encode,except_mapError_eq_ok] at hb
  obtain ⟨j,hj,rfl⟩ := except_map_eq_ok.mp hb
  exact (Document.reload self.serde hj (decode_eq_ok.mp hd).1).2

theorem read_run (self : Queue V) : (self.read : Fallible ε (Error ε) _).run =
    .perform (.store (.get self.location)) (fun r => .done (self.medium.snapshot r)) := by
  simp only [read,fallible_bind_run,attempt_run,store_get_bind,Program.perform_bind]
  congr 1
  funext r
  match r with
  | .error e => rfl
  | .ok none => rfl
  | .ok (some o) =>
      simp only [except_mapError_ok,Program.done_bind,Option.elim_some,raise_run,
        Medium.snapshot,medium,decode]
      cases Document.fromSlice self.serde self.codec o.bytes with
      | error e => rfl
      | ok d =>
          simp only [except_mapError_ok,except_ok_bind]
          cases validate (ε := ε) d self.schema <;> rfl

theorem write_run (self : Queue V) (version : Version) (d : Document V) :
    (self.write version d : Fallible ε (Error ε) _).run =
      (Plan.commit d (fun _ => ()) : Plan _ (Error ε) _).program self.medium version := by
  simp only [write,fallible_bind_run,raise_run,Program.done_bind,Plan.program,medium,encode]
  cases (((d.serialize self.serde self.codec).map self.serde.toVec).mapError
    (Error.document (ε := ε))) with
  | error e => rfl
  | ok b =>
      simp only [attempt_run,store_replace_bind,Program.perform_bind]
      congr 1
      funext r
      cases r <;> rfl

theorem perform_eq (self : Queue V) (op : Op V) :
    (self.perform op : Action ε _) = (procedure op).program self.medium := by
  cases op with
  | publish value =>
      rw [perform,publish,map_bind]
      refine transact_of_read self.read_run (fun version d => ?_)
      rw [map_bind]
      refine generate_of_now (fun id => ?_)
      simp only [bind_pure_comp,Functor.map_map]
      exact commit_of_write (self.write_run version _) _
  | claim leaseDuration =>
      rw [perform,claim,procedure]
      cases (u64TryFrom leaseDuration.asMillis).filter (· > 0) with
      | none => rfl
      | some leaseMillis =>
          rw [Option.elim_some,raise_ok_bind,map_bind]
          refine clock_of_now (fun now => ?_)
          cases checkedAdd64 now leaseMillis with
          | none => rfl
          | some expiresAtMillis =>
              rw [Option.elim_some,raise_ok_bind,map_bind]
              refine transact_of_read self.read_run (fun version d => ?_)
              simp only [claimPlan]
              cases d.messages.findFinIdx? (available now) with
              | none => rfl
              | some index =>
                  simp only [map_bind]
                  refine generate_of_now (fun token => ?_)
                  cases checkedAdd32 d.messages[index].attempts 1 with
                  | none => rfl
                  | some attempts =>
                      simp only [Option.elim_some,raise_ok_bind,map_pure,bind_pure_comp]
                      exact commit_of_write (self.write_run version _) _
  | ack id token =>
      rw [perform,ack,map_bind]
      refine clock_of_now (fun now => ?_)
      rw [map_bind]
      refine transact_of_read self.read_run (fun version d => ?_)
      simp only [ackPlan]
      cases binarySearchByKey d.messages id Message.id with
      | error index => rfl
      | ok index =>
          simp only
          cases d.messages[index]?.bind Message.lease with
          | none => rfl
          | some lease =>
              simp only
              split
              · rfl
              · split
                · rfl
                · simp only [bind_pure_comp,Functor.map_map]
                  exact commit_of_write (self.write_run version _) _
  | len =>
      rw [perform,len,map_bind]
      exact transact_of_read self.read_run (fun version d => rfl)
  | isEmpty =>
      rw [perform,isEmpty,len,map_bind,bind_assoc]
      exact transact_of_read self.read_run (fun version d => rfl)

end Queue

end Objsds
