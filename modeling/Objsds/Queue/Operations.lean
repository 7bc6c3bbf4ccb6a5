import Objsds.Queue.Document
import Objsds.Structure.Optimistic

namespace Objsds

open Foundation

variable {ε V : Type}

instance Duration.instNeZero : NeZero 1000000000 := ⟨by decide⟩

structure Duration where
  secs : UInt64
  nanos : Fin 1000000000

def Duration.asMillis (duration : Duration) : ℕ :=
  duration.secs.toNat * 1000 + duration.nanos.val / 1000000

def u64TryFrom (n : ℕ) : Option UInt64 := if n < 2 ^ 64 then some (UInt64.ofNat n) else none

def checkedAdd64 (a b : UInt64) : Option UInt64 :=
  if a.toNat + b.toNat < 2 ^ 64 then some (a + b) else none

def checkedAdd32 (a b : UInt32) : Option UInt32 :=
  if a.toNat + b.toNat < 2 ^ 32 then some (a + b) else none

structure Claim (V : Type) where
  id : MessageId
  value : V
  leaseToken : LeaseToken
  attempt : UInt32
  leaseExpiresAtMillis : UInt64
deriving DecidableEq

inductive Ack where
  | acknowledged
  | notFound
  | leaseMismatch
  | leaseExpired
deriving DecidableEq

namespace Queue

def FORMAT_VERSION : UInt32 := 1

def KIND : String := "queue"

inductive BuildError where
  | invalidNamespace
  | invalidName
  | missingSchema
deriving DecidableEq

inductive Error (ε : Type) where
  | configuration (error : BuildError)
  | store (source : ε)
  | document (error : JsonError)
  | corrupt (reason : String)
  | notFound
  | alreadyExists (observed : Version)
  | conflict (expected : Version) (observed : Option Version)
  | incompatible (reason : String)
  | invalidLeaseDuration
  | attemptOverflow

def replaceFailure (expected : Version) : ReplaceError ε → Error ε
  | .conflict observed => .conflict expected observed
  | .store source => .store source

def validate (document : Document V) (schema : String) : Except (Error ε) Unit :=
  if document.formatVersion ≠ FORMAT_VERSION then
    .error (.incompatible s!"expected format version {FORMAT_VERSION}, observed {document.formatVersion}")
  else if document.kind ≠ KIND then
    .error (.incompatible s!"expected kind {KIND}, observed {document.kind}")
  else if document.schema ≠ schema then
    .error (.incompatible s!"expected schema {schema}, observed {document.schema}")
  else if outOfOrder Message.id document.messages then
    .error (.corrupt "message IDs must be strictly increasing")
  else .ok ()

theorem validate_eq_ok {document : Document V} {schema : String} :
    validate (ε := ε) document schema = .ok () ↔
      document.toHeader = ⟨FORMAT_VERSION,KIND,schema⟩ ∧
        Increasing Message.id document.messages := by
  obtain ⟨⟨version,kind,observed⟩,messages⟩ := document
  rw [← outOfOrder_eq_false]
  unfold validate
  split
  · simp_all
  · split
    · simp_all
    · split
      · simp_all
      · split <;> simp_all

end Queue

structure Queue (V : Type) where
  location : Location
  schema : String
  codec : Codec V
  serde : Serde

namespace Queue

def emptyBytes (self : Queue V) : Except (Error ε) Bytes :=
  let document : Document V := ⟨⟨FORMAT_VERSION,KIND,self.schema⟩,[]⟩
  ((document.serialize self.serde self.codec).map self.serde.toVec).mapError .document

def read (self : Queue V) : Fallible ε (Error ε) (Version × Document V) := do
  let found ← attempt (Store.get self.location) Error.store
  let object ← raise (found.elim (.error .notFound) .ok)
  let document ← raise ((Document.fromSlice self.serde self.codec object.bytes).mapError
    .document)
  raise (validate document self.schema)
  return (object.version,document)

def write (self : Queue V) (expected : Version) (document : Document V) :
    Fallible ε (Error ε) Unit := do
  let bytes ← raise (((document.serialize self.serde self.codec).map self.serde.toVec).mapError
    .document)
  let _ ← attempt (Store.replace self.location expected bytes) (replaceFailure expected)
  return ()

def publish (self : Queue V) (value : V) : Fallible ε (Error ε) MessageId := do
  let (version,document) ← self.read
  let id ← ExceptT.lift Uuid.nowV7
  let index := partitionPoint document.messages (fun message => message.id < id)
  let messages := document.messages.insertIdx index ⟨id,value,0,none⟩
  self.write version { document with messages := messages }
  return id

def available (now : UInt64) (message : Message V) : Bool :=
  match message.lease with
  | none => true
  | some lease => lease.expiresAtMillis ≤ now

def claim (self : Queue V) (leaseDuration : Duration) :
    Fallible ε (Error ε) (Option (Claim V)) := do
  let leaseMillis ← raise (((u64TryFrom leaseDuration.asMillis).filter (· > 0)).elim
    (.error .invalidLeaseDuration) .ok)
  let now ← ExceptT.lift nowMillis
  let expiresAtMillis ← raise ((checkedAdd64 now leaseMillis).elim
    (.error .invalidLeaseDuration) .ok)
  let (version,document) ← self.read
  match document.messages.findFinIdx? (available now) with
  | none => return none
  | some index => do
      let token ← ExceptT.lift Uuid.nowV7
      let message := document.messages[index]
      let attempts ← raise ((checkedAdd32 message.attempts 1).elim (.error .attemptOverflow) .ok)
      let message := { message with attempts := attempts, lease := some ⟨token,expiresAtMillis⟩ }
      self.write version { document with messages := document.messages.set index message }
      return some ⟨message.id,message.value,token,message.attempts,expiresAtMillis⟩

def ack (self : Queue V) (id : MessageId) (token : LeaseToken) : Fallible ε (Error ε) Ack := do
  let now ← ExceptT.lift nowMillis
  let (version,document) ← self.read
  match binarySearchByKey document.messages id Message.id with
  | .error _ => return .notFound
  | .ok index =>
      match document.messages[index]?.bind Message.lease with
      | none => return .leaseMismatch
      | some lease =>
          if lease.token ≠ token then return .leaseMismatch
          else if lease.expiresAtMillis ≤ now then return .leaseExpired
          else do
            self.write version { document with messages := document.messages.eraseIdx index }
            return .acknowledged

def len (self : Queue V) : Fallible ε (Error ε) ℕ := do
  let (_,document) ← self.read
  return document.messages.length

def isEmpty (self : Queue V) : Fallible ε (Error ε) Bool := do
  let n ← self.len
  return n = 0

inductive Op (V : Type) where
  | publish (value : V)
  | claim (leaseDuration : Duration)
  | ack (id : MessageId) (token : LeaseToken)
  | len
  | isEmpty

inductive Outcome (V : Type) where
  | published (id : MessageId)
  | claimed (claim : Option (Claim V))
  | ack (ack : Ack)
  | len (n : ℕ)
  | isEmpty (b : Bool)

def perform (self : Queue V) : Op V → Action ε (Except (Error ε) (Outcome V))
  | .publish value => (Outcome.published <$> self.publish value).run
  | .claim leaseDuration => (Outcome.claimed <$> self.claim leaseDuration).run
  | .ack id token => (Outcome.ack <$> self.ack id token).run
  | .len => (Outcome.len <$> self.len).run
  | .isEmpty => (Outcome.isEmpty <$> self.isEmpty).run

end Queue

end Objsds
