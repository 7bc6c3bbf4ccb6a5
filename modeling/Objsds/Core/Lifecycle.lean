import Objsds.Json.Serde
import Objsds.Structure.Fallible

namespace Objsds

open Foundation

inductive BuildError where
  | missingStore
  | missingNamespace
  | invalidNamespace
  | missingSchema
  | invalidName
deriving DecidableEq

inductive DocumentError where
  | serialize (error : JsonError)
  | deserialize (error : JsonError)
  | corrupt (reason : String)
deriving DecidableEq

inductive CompatibilityError where
  | formatVersion (expected observed : UInt32)
  | kind (expected observed : String)
  | schema (expected observed : String)
deriving DecidableEq

inductive Error (ε : Type) where
  | configuration (error : BuildError)
  | store (source : ε)
  | document (error : DocumentError)
  | notFound
  | alreadyExists (observed : Version)
  | conflict (expected : Version) (observed : Option Version)
  | incompatible (error : CompatibilityError)

namespace Core

variable {ε : Type}

def FORMAT_VERSION : UInt32 := 1

def validate (formatVersion : UInt32) (observedKind observedSchema expectedKind expectedSchema : String) :
    Except (Error ε) Unit :=
  if formatVersion ≠ FORMAT_VERSION then
    .error (.incompatible (.formatVersion FORMAT_VERSION formatVersion))
  else if observedKind ≠ expectedKind then
    .error (.incompatible (.kind expectedKind observedKind))
  else if observedSchema ≠ expectedSchema then
    .error (.incompatible (.schema expectedSchema observedSchema))
  else .ok ()

def createFailure : CreateError ε → Error ε
  | .alreadyExists observed => .alreadyExists observed
  | .store source => .store source

def replaceFailure (expected : Version) : ReplaceError ε → Error ε
  | .conflict observed => .conflict expected observed
  | .store source => .store source

def create (location : Location) (bytes : Bytes) : Fallible ε (Error ε) Version :=
  attempt (Store.create location bytes) createFailure

def createStructure (location : Location) (emptyBytes : Except (Error ε) Bytes) :
    Fallible ε (Error ε) Unit := do
  let bytes ← raise emptyBytes
  let _ ← create location bytes
  return ()

def openStructure {T : Type} (read : Fallible ε (Error ε) T) : Fallible ε (Error ε) Unit := do
  let _ ← read
  return ()

def openOrCreateStructure {T : Type} (location : Location) (emptyBytes : Except (Error ε) Bytes)
    (read : Fallible ε (Error ε) T) : Fallible ε (Error ε) Unit := do
  let found ← attempt (Store.get location) Error.store
  if found.isSome then
    openStructure read
  else do
    let bytes ← raise emptyBytes
    let created ← ExceptT.lift (create location bytes).run
    match created with
    | .ok _ => return ()
    | .error (.alreadyExists _) => openStructure read
    | .error error => throw error

def replace (location : Location) (expected : Version) (bytes : Bytes) :
    Fallible ε (Error ε) Version :=
  attempt (Store.replace location expected bytes) (replaceFailure expected)

theorem validate_eq_ok {formatVersion : UInt32} {k s k' s' : String} :
    validate (ε := ε) formatVersion k s k' s' = .ok () ↔
      formatVersion = FORMAT_VERSION ∧ k = k' ∧ s = s' := by
  unfold validate
  split
  · simp_all
  · split
    · simp_all
    · split <;> simp_all

end Core

end Objsds
