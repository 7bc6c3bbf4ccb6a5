import Objsds.Filesystem.Disk

namespace Objsds

open Foundation

namespace Filesystem

abbrev Fs : Type → Type := Program SysReply

abbrev FsResult (ε α : Type) : Type := ExceptT ε Fs α

-- The `?` of an `io::Result` inside a function that fails with a `StoreError`.
def io {α : Type} (p : Fs (Except IoError α)) : FsResult StoreError α :=
  ExceptT.mk (Except.mapError StoreError.io <$> p)

def rejectExistingSymlinks (current : Path) : List String → Fs (Except StoreError Unit)
  | [] => return .ok ()
  | component :: rest => do
      let metadata ← Program.request (Sys.symlinkMetadata (current ++ [component]))
      match metadata with
      | .ok .symlink => return .error .invalidLocation
      | .ok _ => rejectExistingSymlinks (current ++ [component]) rest
      | .error .notFound => return .ok ()
      | .error error => return .error (.io error)

def objectPath (root : Path) (location : Location) : FsResult StoreError Target :=
  if accepted location.asStr then do
    ExceptT.mk (rejectExistingSymlinks root (names location.asStr))
    return join root location
  else throw .invalidLocation

def orExisting (path : Path) (error : IoError) : Fs (Except IoError Unit) := do
  let present ← Program.request (Sys.isDir path)
  if present then return .ok () else return .error error

-- `std::fs::create_dir_all`; the path is given from its last name up.
def createDirAllUp : List String → Fs (Except IoError Unit)
  | [] => do
      let made ← Program.request (Sys.mkdir [])
      match made with
      | .ok _ => return .ok ()
      | .error .notFound => return .error .other
      | .error error => orExisting [] error
  | component :: up => do
      let path := (component :: up).reverse
      let made ← Program.request (Sys.mkdir path)
      match made with
      | .ok _ => return .ok ()
      | .error .notFound => do
          let parents ← createDirAllUp up
          match parents with
          | .error error => return .error error
          | .ok _ => do
              let made ← Program.request (Sys.mkdir path)
              match made with
              | .ok _ => return .ok ()
              | .error error => orExisting path error
      | .error error => orExisting path error

def createDirAll (path : Path) : Fs (Except IoError Unit) := createDirAllUp path.reverse

def parentOf (path : Path) : FsResult StoreError Path :=
  match parent path with
  | none => throw .invalidLocation
  | some dir => return dir

def ObjectLock.acquire (path : Path) (mode : LockMode) : FsResult StoreError ℕ := do
  let dir ← parentOf path
  io (createDirAll dir)
  let file ← io (Program.request (Sys.openLock path))
  io (Program.request (Sys.lock file mode))
  return file

-- The guard is dropped, and with it the lock released, once the body has its result.
def ObjectLock.holding {α : Type} (file : ℕ) (body : Fs α) : Fs α := do
  let result ← body
  Program.request (Sys.unlock file)
  return result

def encode (bytes : Bytes) : Fs (Version × Bytes) := do
  let revision ← Program.request Sys.nowV7
  return (revisionVersion revision,envelope revision bytes)

end Filesystem

open Filesystem

structure FilesystemStore where
  root : Filesystem.Path
deriving DecidableEq

namespace FilesystemStore

def readPath (path : Target) : Fs (Except StoreError (Option Object)) := do
  let bytes ← Program.request (Sys.read path)
  match bytes with
  | .ok bytes => return (decode bytes).map some
  | .error .notFound => return .ok none
  | .error error => return .error (.io error)

def preparePath (self : FilesystemStore) (location : Location) : FsResult StoreError Target := do
  let path ← objectPath self.root location
  let dir ← parentOf path.path
  io (createDirAll dir)
  ExceptT.mk (rejectExistingSymlinks self.root (names location.asStr))
  return path

def writeTemporary (dir temporary : Filesystem.Path) (path : Target) (encoded : Bytes) :
    FsResult StoreError Unit := do
  let file ← io (Program.request (Sys.createNew temporary))
  io (Program.request (Sys.writeAll file encoded))
  io (Program.request (Sys.syncAll file))
  io (Program.request (Sys.rename temporary path))
  let opened ← io (Program.request (Sys.openDir dir))
  io (Program.request (Sys.syncDir opened))

def publish (path : Target) (encoded : Bytes) : FsResult StoreError Unit := do
  let dir ← parentOf path.path
  let id ← ExceptT.lift (Program.request Sys.nowV7)
  let temporary := dir ++ [temporaryName id]
  ExceptT.mk (do
    let result ← (writeTemporary dir temporary path encoded).run
    match result with
    | .ok _ => return .ok ()
    | .error error => do
        let _ ← Program.request (Sys.removeFile temporary)
        return .error error)

def write (path : Target) (bytes : Bytes) : FsResult StoreError Version := do
  let (version,encoded) ← ExceptT.lift (encode bytes)
  publish path encoded
  return version

def get (self : FilesystemStore) (location : Location) :
    Fs (Except StoreError (Option Object)) := ExceptT.run do
  let path ← objectPath self.root location
  let lock ← ObjectLock.acquire (lockPath self.root location) .shared
  ExceptT.mk (ObjectLock.holding lock (readPath path))

def createLocked (path : Target) (bytes : Bytes) : Fs (Except (CreateError StoreError) Version) :=
  ExceptT.run do
    let current ← ExceptT.adapt CreateError.store (ExceptT.mk (readPath path))
    match current with
    | some object => throw (.alreadyExists object.version)
    | none => ExceptT.adapt CreateError.store (write path bytes)

def create (self : FilesystemStore) (location : Location) (bytes : Bytes) :
    Fs (Except (CreateError StoreError) Version) := ExceptT.run do
  let path ← ExceptT.adapt CreateError.store (self.preparePath location)
  let lock ← ExceptT.adapt CreateError.store
    (ObjectLock.acquire (lockPath self.root location) .exclusive)
  ExceptT.mk (ObjectLock.holding lock (createLocked path bytes))

def replaceLocked (path : Target) (expected : Version) (bytes : Bytes) :
    Fs (Except (ReplaceError StoreError) Version) := ExceptT.run do
  let current ← ExceptT.adapt ReplaceError.store (ExceptT.mk (readPath path))
  if current.map Object.version ≠ some expected then
    throw (.conflict (current.map Object.version))
  else ExceptT.adapt ReplaceError.store (write path bytes)

def replace (self : FilesystemStore) (location : Location) (expected : Version) (bytes : Bytes) :
    Fs (Except (ReplaceError StoreError) Version) := ExceptT.run do
  let path ← ExceptT.adapt ReplaceError.store (self.preparePath location)
  let lock ← ExceptT.adapt ReplaceError.store
    (ObjectLock.acquire (lockPath self.root location) .exclusive)
  ExceptT.mk (ObjectLock.holding lock (replaceLocked path expected bytes))

end FilesystemStore

namespace Filesystem

inductive BuildError where
  | missingRoot
  | io (source : IoError)

structure FilesystemStoreBuilder where
  root : Option Path

def FilesystemStoreBuilder.build (self : FilesystemStoreBuilder) :
    FsResult BuildError FilesystemStore :=
  match self.root with
  | none => throw .missingRoot
  | some root => do
      ExceptT.adapt BuildError.io (ExceptT.mk (createDirAll root))
      let root ← ExceptT.adapt BuildError.io
        (ExceptT.mk (Program.request (Sys.canonicalize root)))
      let present ← ExceptT.lift (Program.request (Sys.isDir root))
      if present then do
        ExceptT.adapt BuildError.io (ExceptT.mk (createDirAll (root ++ [lockDir])))
        return ⟨root⟩
      else throw (.io .other)

end Filesystem

namespace FilesystemStore

def serve (self : FilesystemStore) : (q : Request) → Fs (q.Response StoreError)
  | .get location => self.get location
  | .create location bytes => CreateReply.ofResult <$> self.create location bytes
  | .replace location expected bytes =>
      ReplaceReply.ofResult <$> self.replace location expected bytes

-- A call of a structure with every store request carried out on the disk.
def perform {α : Type} (self : FilesystemStore) : Action StoreError α → Fs α
  | .done a => .done a
  | .perform (.store q) next => self.serve q >>= fun r => self.perform (next r)
  | .perform .nowMillis next => .perform .nowMillis (fun now => self.perform (next now))
  | .perform .nowV7 next => .perform .nowV7 (fun id => self.perform (next id))

end FilesystemStore

end Objsds
