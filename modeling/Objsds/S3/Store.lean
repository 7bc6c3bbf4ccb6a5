import Objsds.Store.Interface

namespace Objsds

open Foundation

namespace S3

structure ClientError where
  status : Option UInt16
  message : String
deriving DecidableEq

inductive Condition where
  | none
  | ifNoneMatch (etag : String)
  | ifMatch (etag : String)
deriving DecidableEq

inductive Request where
  | get (bucket key : String)
  | put (bucket key : String) (condition : Condition) (contentType : String) (body : Bytes)
  | delete (bucket key : String)
deriving DecidableEq

structure GetResponse where
  etag : Option String
  bytes : Except ClientError Bytes

structure PutResponse where
  etag : Option String

abbrev Response : Request → Type
  | .get _ _ => Except ClientError GetResponse
  | .put _ _ _ _ _ => Except ClientError PutResponse
  | .delete _ _ => Except ClientError Unit

abbrev Http : Type → Type := Program Response

-- What the client crate says of a header value before anything is sent.
structure BlockingClient where
  ifNoneMatch : String → Except ClientError Unit
  ifMatch : String → Except ClientError Unit
  contentType : String → Except ClientError Unit

structure Config where
  bucket : String

inductive StoreError where
  | transport (error : ClientError)
  | missingEtag
deriving DecidableEq

end S3

structure S3Store where
  config : S3.Config
  client : S3.BlockingClient

namespace S3Store

open S3

def version (etag : Option String) : Except StoreError Version :=
  etag.elim (.error .missingEtag) (fun etag => .ok ⟨etag⟩)

def isStatus (error : ClientError) (expected : UInt16) : Bool := error.status = some expected

def get (self : S3Store) (location : Location) : Http (Except StoreError (Option Object)) := do
  let response ← Program.request (S3.Request.get self.config.bucket location.asStr)
  match response with
  | .ok response => return do
      let version ← version response.etag
      let bytes ← response.bytes.mapError StoreError.transport
      return some ⟨bytes,version⟩
  | .error error =>
      if isStatus error 404 then return .ok none
      else return .error (.transport error)

def observed (self : S3Store) (location : Location) : Http (Except StoreError (Option Version)) := do
  let object ← self.get location
  return object.map (Option.map Object.version)

def create (self : S3Store) (location : Location) (bytes : Bytes) :
    Http (Except (CreateError StoreError) Version) :=
  match self.client.ifNoneMatch "*" >>= fun _ => self.client.contentType "application/json" with
  | .error error => return .error (.store (.transport error))
  | .ok _ => do
      let response ← Program.request (S3.Request.put self.config.bucket location.asStr
        (.ifNoneMatch "*") "application/json" bytes)
      match response with
      | .ok response => return (version response.etag).mapError .store
      | .error error =>
          if isStatus error 409 || isStatus error 412 then do
            let observed ← self.observed location
            match observed with
            | .error source => return .error (.store source)
            | .ok none => return .error (.store (.transport error))
            | .ok (some observed) => return .error (.alreadyExists observed)
          else return .error (.store (.transport error))

def replace (self : S3Store) (location : Location) (expected : Version) (bytes : Bytes) :
    Http (Except (ReplaceError StoreError) Version) :=
  match self.client.ifMatch expected.asStr >>= fun _ =>
    self.client.contentType "application/json" with
  | .error error => return .error (.store (.transport error))
  | .ok _ => do
      let response ← Program.request (S3.Request.put self.config.bucket location.asStr
        (.ifMatch expected.asStr) "application/json" bytes)
      match response with
      | .ok response => return (version response.etag).mapError .store
      | .error error =>
          if isStatus error 404 || isStatus error 409 || isStatus error 412 then do
            let observed ← self.observed location
            match observed with
            | .error source => return .error (.store source)
            | .ok observed => return .error (.conflict observed)
          else return .error (.store (.transport error))

end S3Store

end Objsds
