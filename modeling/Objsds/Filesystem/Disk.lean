import Objsds.Filesystem.Format
import Objsds.Filesystem.Path

namespace Objsds

open Foundation

namespace Filesystem

inductive Node where
  | dir
  | file (ino : ℕ)
  | link (target : Path)
deriving DecidableEq

inductive FileType where
  | dir
  | file
  | symlink
deriving DecidableEq

inductive LockMode where
  | shared
  | exclusive
deriving DecidableEq

-- `kept p` lists what the entry `p` may turn out to be after a crash; syncing the directory that
-- contains it leaves only what the entry is. `creator` and `drawn` remember the call that made a
-- file and the call that was given an identifier.
structure Disk where
  entries : Path → Option Node
  kept : Path → List (Option Node)
  data : ℕ → Bytes
  synced : ℕ → Bool
  creator : ℕ → ℕ
  next : ℕ
  locks : ℕ → List (ℕ × LockMode)
  drawn : Uuid → Option ℕ

namespace Disk

def untouched (entries : Path → Option Node) : Disk where
  entries := entries
  kept := fun p => [entries p]
  data := fun _ => []
  synced := fun _ => true
  creator := fun _ => 0
  next := 0
  locks := fun _ => []
  drawn := fun _ => none

def node (d : Disk) (p : Path) : Option Node := if p = [] then some .dir else d.entries p

def walk (entries : Path → Option Node) (follow : Path → List String → Except IoError Path)
    (base : Path) : List String → Except IoError Path
  | [] => .ok base
  | c :: rest =>
      match entries (base ++ [c]) with
      | some .dir => walk entries follow (base ++ [c]) rest
      | some (.link target) => follow target rest
      | some (.file _) => if rest = [] then .ok (base ++ [c]) else .error .notADirectory
      | none => if rest = [] then .ok (base ++ [c]) else .error .notFound

def follow (entries : Path → Option Node) : ℕ → List String → Except IoError Path
  | 0, path => walk entries (fun _ _ => .error .filesystemLoop) [] path
  | links + 1, path => walk entries (fun target rest => follow entries links (target ++ rest)) [] path

def resolve (d : Disk) (path : Path) : Except IoError Path := follow d.entries 40 path

-- Where the last name of the path stands, a link or not.
def locate (d : Disk) (path : Path) : Except IoError Path :=
  match path.getLast? with
  | none => .ok []
  | some name =>
      match d.resolve path.dropLast with
      | .error e => .error e
      | .ok base =>
          match d.node base with
          | some .dir => .ok (base ++ [name])
          | some _ => .error .notADirectory
          | none => .error .notFound

def set (d : Disk) (p : Path) (n : Option Node) : Disk :=
  { d with
    entries := Function.update d.entries p n
    kept := Function.update d.kept p (n :: d.kept p) }

def newFile (d : Disk) (i : ℕ) (p : Path) : Disk :=
  { d.set p (some (.file d.next)) with
    data := Function.update d.data d.next []
    synced := Function.update d.synced d.next false
    creator := Function.update d.creator d.next i
    next := d.next + 1 }

def append (d : Disk) (ino : ℕ) (bytes : Bytes) : Disk :=
  { d with
    data := Function.update d.data ino (d.data ino ++ bytes)
    synced := Function.update d.synced ino false }

def symlinkMetadata (d : Disk) (path : Path) : Except IoError FileType :=
  match d.locate path with
  | .error e => .error e
  | .ok p =>
      match d.node p with
      | none => .error .notFound
      | some .dir => .ok .dir
      | some (.file _) => .ok .file
      | some (.link _) => .ok .symlink

def mkdir (d : Disk) (path : Path) : Except IoError Unit × Disk :=
  match d.locate path with
  | .error e => (.error e,d)
  | .ok p =>
      match d.node p with
      | some _ => (.error .alreadyExists,d)
      | none => (.ok (),d.set p (some .dir))

def isDir (d : Disk) (path : Path) : Bool :=
  match d.resolve path with
  | .error _ => false
  | .ok p => d.node p = some .dir

def openLock (d : Disk) (i : ℕ) (path : Path) : Except IoError ℕ × Disk :=
  match d.resolve path with
  | .error e => (.error e,d)
  | .ok p =>
      match d.node p with
      | some (.file ino) => (.ok ino,d)
      | some .dir => (.error .isADirectory,d)
      | some (.link _) => (.error .filesystemLoop,d)
      | none => (.ok d.next,d.newFile i p)

def read (d : Disk) (target : Target) : Except IoError Bytes :=
  match d.resolve target.path with
  | .error e => .error e
  | .ok p =>
      match d.node p with
      | some (.file ino) => if target.dirOnly then .error .notADirectory else .ok (d.data ino)
      | some .dir => .error .isADirectory
      | some (.link _) => .error .filesystemLoop
      | none => .error .notFound

def createNew (d : Disk) (i : ℕ) (path : Path) : Except IoError ℕ × Disk :=
  match d.locate path with
  | .error e => (.error e,d)
  | .ok p =>
      match d.node p with
      | some _ => (.error .alreadyExists,d)
      | none => (.ok d.next,d.newFile i p)

-- No file takes a name that only a directory can have.
def refusal (d : Disk) (target : Target) : IoError :=
  if target.endsInDot then
    match d.resolve target.path with
    | .error e => e
    | .ok q =>
        match d.node q with
        | none => .notFound
        | some .dir => .other
        | some _ => .notADirectory
  else .notADirectory

-- Only regular files are ever renamed here.
def rename (d : Disk) (source : Path) (target : Target) : Except IoError Unit × Disk :=
  match d.locate source, d.locate target.path with
  | .error e, _ => (.error e,d)
  | _, .error e => (.error e,d)
  | .ok p, .ok q =>
      match d.node p with
      | none => (.error .notFound,d)
      | some (.file ino) =>
          if target.dirOnly then (.error (d.refusal target),d)
          else if d.node q = some .dir then (.error .isADirectory,d)
          else if d.node q = some (.file ino) then (.ok (),d)
          else (.ok (),(d.set q (some (.file ino))).set p none)
      | some _ => (.error .other,d)

def canonicalize (d : Disk) (path : Path) : Except IoError Path :=
  match d.resolve path with
  | .error e => .error e
  | .ok p => if d.node p = none then .error .notFound else .ok p

def syncDir (d : Disk) (p : Path) : Disk :=
  { d with kept := fun q => if q ≠ [] ∧ q.dropLast = p then [d.entries q] else d.kept q }

def syncAll (d : Disk) (ino : ℕ) : Disk := { d with synced := Function.update d.synced ino true }

def removeFile (d : Disk) (path : Path) : Except IoError Unit × Disk :=
  match d.locate path with
  | .error e => (.error e,d)
  | .ok p =>
      match d.node p with
      | none => (.error .notFound,d)
      | some .dir => (.error .isADirectory,d)
      | some _ => (.ok (),d.set p none)

def grantable (d : Disk) (ino : ℕ) : LockMode → Bool
  | .shared => (d.locks ino).all (fun h => h.2 = .shared)
  | .exclusive => d.locks ino = []

def lock (d : Disk) (i ino : ℕ) (mode : LockMode) : Disk :=
  { d with locks := Function.update d.locks ino ((i,mode) :: d.locks ino) }

def unlock (d : Disk) (i ino : ℕ) : Disk :=
  { d with locks := Function.update d.locks ino ((d.locks ino).filter (fun h => h.1 ≠ i)) }

def draw (d : Disk) (i : ℕ) (id : Uuid) : Disk :=
  { d with drawn := Function.update d.drawn id (some i) }

end Disk

inductive Sys where
  | symlinkMetadata (path : Path)
  | mkdir (path : Path)
  | isDir (path : Path)
  | openLock (path : Path)
  | lock (ino : ℕ) (mode : LockMode)
  | unlock (ino : ℕ)
  | read (target : Target)
  | createNew (path : Path)
  | writeAll (ino : ℕ) (bytes : Bytes)
  | syncAll (ino : ℕ)
  | rename (source : Path) (target : Target)
  | canonicalize (path : Path)
  | openDir (path : Path)
  | syncDir (dir : Path)
  | removeFile (path : Path)
  | nowV7
  | nowMillis
deriving DecidableEq

abbrev SysReply : Sys → Type
  | .symlinkMetadata _ => Except IoError FileType
  | .mkdir _ => Except IoError Unit
  | .isDir _ => Bool
  | .openLock _ => Except IoError ℕ
  | .lock _ _ => Except IoError Unit
  | .unlock _ => Unit
  | .read _ => Except IoError Bytes
  | .createNew _ => Except IoError ℕ
  | .writeAll _ _ => Except IoError Unit
  | .syncAll _ => Except IoError Unit
  | .rename _ _ => Except IoError Unit
  | .canonicalize _ => Except IoError Path
  | .openDir _ => Except IoError Path
  | .syncDir _ => Except IoError Unit
  | .removeFile _ => Except IoError Unit
  | .nowV7 => Uuid
  | .nowMillis => UInt64

-- What the operating system answers; a lock that is not free blocks its caller, and no slice is
-- longer than `isize::MAX` bytes. An open directory is known by its canonical path.
def Disk.exec (d : Disk) (i : ℕ) : (e : Sys) → Option (SysReply e × Disk)
  | .symlinkMetadata path => some (d.symlinkMetadata path,d)
  | .mkdir path => some (d.mkdir path)
  | .isDir path => some (d.isDir path,d)
  | .openLock path => some (d.openLock i path)
  | .lock ino mode => if d.grantable ino mode then some (.ok (),d.lock i ino mode) else none
  | .unlock ino => some ((),d.unlock i ino)
  | .read target => some (d.read target,d)
  | .createNew path => some (d.createNew i path)
  | .writeAll ino bytes => if bytes.length < 2 ^ 63 then some (.ok (),d.append ino bytes) else none
  | .syncAll ino => some (.ok (),d.syncAll ino)
  | .rename source target => some (d.rename source target)
  | .canonicalize path => some (d.canonicalize path,d)
  | .openDir path => some (d.canonicalize path,d)
  | .syncDir dir => some (.ok (),d.syncDir dir)
  | .removeFile path => some (d.removeFile path)
  | .nowV7 => none
  | .nowMillis => none

def Sys.failure : (e : Sys) → Option (SysReply e)
  | .symlinkMetadata _ => some (.error .other)
  | .mkdir _ => some (.error .other)
  | .isDir _ => some false
  | .openLock _ => some (.error .other)
  | .lock _ _ => some (.error .other)
  | .unlock _ => none
  | .read _ => some (.error .other)
  | .createNew _ => some (.error .other)
  | .writeAll _ _ => some (.error .other)
  | .syncAll _ => some (.error .other)
  | .rename _ _ => some (.error .other)
  | .canonicalize _ => some (.error .other)
  | .openDir _ => some (.error .other)
  | .syncDir _ => some (.error .other)
  | .removeFile _ => some (.error .other)
  | .nowV7 => none
  | .nowMillis => none

inductive Env (faults : Prop) : Disk → Event SysReply → Disk → Prop
  | exec {d d' : Disk} {i : ℕ} {e : Sys} {r : SysReply e} :
      d.exec i e = some (r,d') → Env faults d ⟨i,e,r⟩ d'
  | nowMillis {d : Disk} (i : ℕ) (now : UInt64) : Env faults d ⟨i,.nowMillis,now⟩ d
  | nowV7 {d : Disk} (i : ℕ) (id : Uuid) :
      d.drawn id = none → Env faults d ⟨i,.nowV7,id⟩ (d.draw i id)
  | fault {d : Disk} {i : ℕ} {e : Sys} {r : SysReply e} :
      faults → e.failure = some r → Env faults d ⟨i,e,r⟩ d
  | shortWrite {d : Disk} {i ino : ℕ} {bytes part : Bytes} :
      faults → part <+: bytes → Env faults d ⟨i,.writeAll ino bytes,.error .other⟩ (d.append ino part)

def ancestors (p : Path) : List Path := (List.range' 1 (p.length - 1)).map p.take

-- A crash keeps of every entry one of the values it may have, loses what stands below a lost
-- directory, and scrambles file data that was not synced.
def Disk.crash (d : Disk) (choice : Path → Option Node) (scrambled : ℕ → Bytes) : Disk :=
  let entries p := if ∀ q ∈ ancestors p, choice q = some .dir then choice p else none
  { d with
    entries := entries
    kept := fun p => [entries p]
    data := fun ino => if d.synced ino then d.data ino else scrambled ino
    synced := fun _ => true
    locks := fun _ => [] }

inductive Crash (d : Disk) : Disk → Prop
  | crash (choice : Path → Option Node) (scrambled : ℕ → Bytes)
      (kept : ∀ p, choice p ∈ d.kept p) : Crash d (d.crash choice scrambled)

end Filesystem

end Objsds
