import Objsds.Core.Builder
import Objsds.Queue.Builder

namespace Objsds

open Foundation

variable {ε : Type}

def BuildError.text : BuildError → String
  | .missingStore => "missing object store"
  | .missingNamespace => "missing namespace"
  | .invalidNamespace => "namespace must be one non-empty path segment"
  | .missingSchema => "missing schema identifier"
  | .invalidName => "structure name must be one non-empty path segment"

def Queue.BuildError.text : Queue.BuildError → String
  | .invalidNamespace => "namespace must be one non-empty path segment"
  | .invalidName => "queue name must be one non-empty path segment"
  | .missingSchema => "missing schema identifier"

def CompatibilityError.text (error : CompatibilityError) : String :=
  "incompatible data structure: " ++
    match error with
    | .formatVersion expected observed =>
        "expected format version " ++ toString expected.toNat ++ ", observed " ++
          toString observed.toNat
    | .kind expected observed => "expected kind " ++ expected ++ ", observed " ++ observed
    | .schema expected observed => "expected schema " ++ expected ++ ", observed " ++ observed

-- `store` and `json` are the texts of errors that come from outside the repository.
structure Binding (ε : Type) where
  serde : Serde
  store : ε → String
  json : JsonError → String

namespace Binding

def DocumentError.text (self : Binding ε) : DocumentError → String
  | .serialize error => "could not encode JSON document: " ++ self.json error
  | .deserialize error => "persisted JSON document is malformed: " ++ self.json error
  | .corrupt reason => "persisted document is corrupt: " ++ reason

structure NapiError where
  reason : String

def object (members : List (String × Json)) : Json := (Json.object members).toValue

def bindingError (self : Binding ε) (code message : String) (details : Json) : NapiError :=
  let envelope := object
    [("code",.string code),("message",.string message),("details",details)]
  ⟨"OBJSDS_ERR_JSON:" ++ self.serde.toText envelope⟩

def configurationError (self : Binding ε) (text : String) : NapiError :=
  self.bindingError "ERR_OBJSDS_INVALID_CONFIGURATION" text (object [])

def versionJson : Option Version → Json
  | some version => .string version.asStr
  | none => .null

def operationError (self : Binding ε) : Error ε → NapiError
  | .configuration error => self.configurationError error.text
  | .store error => self.bindingError "ERR_OBJSDS_STORE" (self.store error) (object [])
  | .document error =>
      self.bindingError "ERR_OBJSDS_DOCUMENT" (DocumentError.text self error) (object [])
  | .notFound =>
      self.bindingError "ERR_OBJSDS_NOT_FOUND" "data structure does not exist" (object [])
  | .alreadyExists observed =>
      self.bindingError "ERR_OBJSDS_ALREADY_EXISTS" "data structure already exists"
        (object [("observedVersion",.string observed.asStr)])
  | .conflict expected observed =>
      self.bindingError "ERR_OBJSDS_CONFLICT" "object version conflict"
        (object [("expectedVersion",.string expected.asStr),
          ("observedVersion",versionJson observed)])
  | .incompatible error => self.bindingError "ERR_OBJSDS_INCOMPATIBLE" error.text (object [])

def queueError (self : Binding ε) : Queue.Error ε → NapiError
  | .configuration error => self.configurationError error.text
  | .store error => self.bindingError "ERR_OBJSDS_STORE" (self.store error) (object [])
  | .document error => self.bindingError "ERR_OBJSDS_DOCUMENT" (self.json error) (object [])
  | .corrupt reason => self.bindingError "ERR_OBJSDS_DOCUMENT" reason (object [])
  | .notFound =>
      self.bindingError "ERR_OBJSDS_NOT_FOUND" "data structure does not exist" (object [])
  | .alreadyExists observed =>
      self.bindingError "ERR_OBJSDS_ALREADY_EXISTS" "data structure already exists"
        (object [("observedVersion",.string observed.asStr)])
  | .conflict expected observed =>
      self.bindingError "ERR_OBJSDS_CONFLICT" "object version conflict"
        (object [("expectedVersion",.string expected.asStr),
          ("observedVersion",versionJson observed)])
  | .incompatible reason => self.bindingError "ERR_OBJSDS_INCOMPATIBLE" reason (object [])
  | .invalidLeaseDuration =>
      self.bindingError "ERR_OBJSDS_INVALID_CONFIGURATION" "invalid lease duration" (object [])
  | .attemptOverflow =>
      self.bindingError "ERR_OBJSDS_DOCUMENT" "message claim count overflowed" (object [])

def invalidHandle (self : Binding ε) : NapiError :=
  self.bindingError "ERR_OBJSDS_INVALID_HANDLE" "native data-structure handle is invalid"
    (object [])

def parseValue (self : Binding ε) (text : String) : Except NapiError Value :=
  ((self.serde.fromText text).map Json.value).mapError (fun error =>
    self.bindingError "ERR_OBJSDS_INVALID_JSON" ("invalid JSON value: " ++ self.json error)
      (object []))

def parseId (self : Binding ε) (code what field text : String) : Except NapiError Uuid :=
  match self.serde.parseUuid text with
  | some id => .ok id
  | none => .error (self.bindingError code ("invalid " ++ what ++ ": " ++ self.json .data)
      (object [(field,.string text)]))

def parseLogId (self : Binding ε) (id : String) : Except NapiError LogId :=
  self.parseId "ERR_OBJSDS_INVALID_LOG_ID" "log identifier" "id" id

def parseMessageId (self : Binding ε) (id : String) : Except NapiError MessageId :=
  self.parseId "ERR_OBJSDS_INVALID_MESSAGE_ID" "message identifier" "id" id

def parseLeaseToken (self : Binding ε) (token : String) : Except NapiError LeaseToken :=
  self.parseId "ERR_OBJSDS_INVALID_LEASE_TOKEN" "lease token" "token" token

def jsonString (self : Binding ε) (j : Json) : String := self.serde.toText j

def optionalJson (self : Binding ε) : Option Json → String
  | some value => self.jsonString (object [("found",.bool true),("value",value)])
  | none => self.jsonString (object [("found",.bool false)])

def recordJson (self : Binding ε) (record : Record Value) : Json :=
  .object [("id",.ofUuid self.serde record.id),("value",record.value.tree)]

def claimJson (self : Binding ε) (claim : Claim Value) : Json :=
  object [("id",.ofUuid self.serde claim.id),("value",claim.value.tree),
    ("leaseToken",.ofUuid self.serde claim.leaseToken),("attempt",.ofU32 claim.attempt),
    ("leaseExpiresAtMillis",.ofU64 claim.leaseExpiresAtMillis)]

def insertIfAbsentJson : InsertIfAbsent Value → Json
  | .inserted version => object [("inserted",.bool true),("version",.string version.asStr)]
  | .occupied value => object [("inserted",.bool false),("value",value.tree)]

def ackText : Ack → String
  | .acknowledged => "acknowledged"
  | .notFound => "notFound"
  | .leaseMismatch => "leaseMismatch"
  | .leaseExpired => "leaseExpired"

def mapText (self : Binding ε) : Map.Outcome Value → String
  | .value found => self.optionalJson (found.map Value.tree)
  | .entries all => self.jsonString (.array (all.map (fun p => .array [.string p.1,p.2.tree])))
  | .version version => self.jsonString (.string version.asStr)
  | .insertIfAbsent result => self.jsonString (insertIfAbsentJson result)
  | .removed value => self.optionalJson (value.map Value.tree)

def logText (self : Binding ε) : Log.Outcome Value → String
  | .appended id => self.jsonString (.ofUuid self.serde id)
  | .record found => self.optionalJson (found.map self.recordJson)
  | .records all => self.jsonString (.array (all.map self.recordJson))

def queueText (self : Binding ε) : Queue.Outcome Value → String
  | .published id => self.jsonString (.ofUuid self.serde id)
  | .claimed claim => self.optionalJson (claim.map self.claimJson)
  | .ack ack => self.jsonString (.string (ackText ack))
  | .len n => self.jsonString (.ofU64 (UInt64.ofNat n))
  | .isEmpty b => self.jsonString (.bool b)

structure State where
  ns : String
  nextHandle : UInt32
  maps : UInt32 → Option (Map Value)
  logs : UInt32 → Option (Log Value)
  queues : UInt32 → Option (Queue Value)

def State.new (ns : String) : State := ⟨ns,1,fun _ => none,fun _ => none,fun _ => none⟩

inductive Operation where
  | mapLifecycle (lifecycle : Lifecycle) (name schema : String)
  | mapGet (handle : UInt32) (key : String)
  | mapEntries (handle : UInt32)
  | mapInsert (handle : UInt32) (key valueJson : String)
  | mapInsertIfAbsent (handle : UInt32) (key valueJson : String)
  | mapRemove (handle : UInt32) (key : String)
  | logLifecycle (lifecycle : Lifecycle) (name schema : String)
  | logAppend (handle : UInt32) (valueJson : String)
  | logGet (handle : UInt32) (id : String)
  | logRecords (handle : UInt32)
  | logRecordsAfter (handle : UInt32) (id : String)
  | queueLifecycle (lifecycle : Lifecycle) (name schema : String)
  | queuePublish (handle : UInt32) (valueJson : String)
  | queueClaim (handle : UInt32) (leaseMillis : Int64)
  | queueAck (handle : UInt32) (id token : String)
  | queueLen (handle : UInt32)
  | queueIsEmpty (handle : UInt32)

def answer {Err α : Type} (text : α → String) (fail : Err → NapiError)
    (action : Action ε (Except Err α)) : Action ε (Except NapiError String) :=
  (fun r => (r.map text).mapError fail) <$> action

def onMap (self : Binding ε) (state : State) (handle : UInt32)
    (op : Except NapiError (Map.Op Value)) : Action ε (Except NapiError String) :=
  match state.maps handle, op with
  | none, _ => .done (.error self.invalidHandle)
  | some _, .error error => .done (.error error)
  | some map, .ok op => answer self.mapText self.operationError (map.perform op)

def onLog (self : Binding ε) (state : State) (handle : UInt32)
    (op : Except NapiError (Log.Op Value)) : Action ε (Except NapiError String) :=
  match state.logs handle, op with
  | none, _ => .done (.error self.invalidHandle)
  | some _, .error error => .done (.error error)
  | some log, .ok op => answer self.logText self.operationError (log.perform op)

def onQueue (self : Binding ε) (state : State) (handle : UInt32)
    (op : Except NapiError (Queue.Op Value)) : Action ε (Except NapiError String) :=
  match state.queues handle, op with
  | none, _ => .done (.error self.invalidHandle)
  | some _, .error error => .done (.error error)
  | some queue, .ok op => answer self.queueText self.queueError (queue.perform op)

def fromMillis (millis : ℕ) : Duration where
  secs := UInt64.ofNat (millis / 1000)
  nanos := ⟨millis % 1000 * 1000000,by omega⟩

def leaseDuration (self : Binding ε) (leaseMillis : Int64) : Except NapiError Duration :=
  if leaseMillis < 0 then
    .error (self.bindingError "ERR_OBJSDS_INVALID_CONFIGURATION"
      "lease duration must be a positive integer number of milliseconds" (object []))
  else .ok (fromMillis leaseMillis.toInt.toNat)

def handleJson (self : Binding ε) (handle : UInt32) : String := self.jsonString (.ofU32 handle)

def openMap (self : Binding ε) (state : State) (lifecycle : Lifecycle) (name schema : String) :
    Action ε (Except NapiError String × State) := do
  let handle := state.nextHandle
  let state := { state with nextHandle := handle + 1 }
  let builder := (MapBuilder.new state.ns name valueCodec self.serde).withSchema schema
  match ← (builder.run lifecycle).run with
  | .error error => return (.error (self.operationError error),state)
  | .ok map => return (.ok (self.handleJson handle),
      { state with maps := Function.update state.maps handle (some map) })

def openLog (self : Binding ε) (state : State) (lifecycle : Lifecycle) (name schema : String) :
    Action ε (Except NapiError String × State) := do
  let handle := state.nextHandle
  let state := { state with nextHandle := handle + 1 }
  let builder := (LogBuilder.new state.ns name valueCodec self.serde).withSchema schema
  match ← (builder.run lifecycle).run with
  | .error error => return (.error (self.operationError error),state)
  | .ok log => return (.ok (self.handleJson handle),
      { state with logs := Function.update state.logs handle (some log) })

def openQueue (self : Binding ε) (state : State) (lifecycle : Lifecycle) (name schema : String) :
    Action ε (Except NapiError String × State) := do
  let handle := state.nextHandle
  let state := { state with nextHandle := handle + 1 }
  let builder := (QueueBuilder.new state.ns name valueCodec self.serde).withSchema schema
  match ← (builder.run lifecycle).run with
  | .error error => return (.error (self.queueError error),state)
  | .ok queue => return (.ok (self.handleJson handle),
      { state with queues := Function.update state.queues handle (some queue) })

def keep (state : State) (task : Action ε (Except NapiError String)) :
    Action ε (Except NapiError String × State) :=
  (·,state) <$> task

def execute (self : Binding ε) (state : State) :
    Operation → Action ε (Except NapiError String × State)
  | .mapLifecycle lifecycle name schema => self.openMap state lifecycle name schema
  | .mapGet handle key => keep state (self.onMap state handle (.ok (.get key)))
  | .mapEntries handle => keep state (self.onMap state handle (.ok .entries))
  | .mapInsert handle key valueJson =>
      keep state (self.onMap state handle ((self.parseValue valueJson).map (.insert key)))
  | .mapInsertIfAbsent handle key valueJson =>
      keep state (self.onMap state handle ((self.parseValue valueJson).map (.insertIfAbsent key)))
  | .mapRemove handle key => keep state (self.onMap state handle (.ok (.remove key)))
  | .logLifecycle lifecycle name schema => self.openLog state lifecycle name schema
  | .logAppend handle valueJson =>
      keep state (self.onLog state handle ((self.parseValue valueJson).map .append))
  | .logGet handle id => keep state (self.onLog state handle ((self.parseLogId id).map .get))
  | .logRecords handle => keep state (self.onLog state handle (.ok .records))
  | .logRecordsAfter handle id =>
      keep state (self.onLog state handle ((self.parseLogId id).map .recordsAfter))
  | .queueLifecycle lifecycle name schema => self.openQueue state lifecycle name schema
  | .queuePublish handle valueJson =>
      keep state (self.onQueue state handle ((self.parseValue valueJson).map .publish))
  | .queueClaim handle leaseMillis =>
      match self.leaseDuration leaseMillis with
      | .error error => .done (.error error,state)
      | .ok duration => keep state (self.onQueue state handle (.ok (.claim duration)))
  | .queueAck handle id token =>
      keep state (self.onQueue state handle (do
        let id ← self.parseMessageId id
        let token ← self.parseLeaseToken token
        return .ack id token))
  | .queueLen handle => keep state (self.onQueue state handle (.ok .len))
  | .queueIsEmpty handle => keep state (self.onQueue state handle (.ok .isEmpty))

def plain (serde : Serde) : Binding Empty := ⟨serde,Empty.elim,fun _ => ""⟩

end Binding

end Objsds
