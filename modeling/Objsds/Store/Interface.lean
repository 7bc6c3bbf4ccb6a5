import Mathlib.Algebra.Group.Nat.Defs
import Mathlib.Algebra.GroupWithZero.Nat
import Objsds.Foundation.Pool
import Objsds.Store.Location

namespace Objsds

open Foundation

abbrev Bytes := List UInt8

abbrev Uuid := Fin (2 ^ 128)

instance Uuid.instNeZero : NeZero (2 ^ 128) := ⟨by decide⟩

structure Version where
  asStr : String
deriving DecidableEq

structure Object where
  bytes : Bytes
  version : Version
deriving DecidableEq

inductive CreateError (ε : Type) where
  | alreadyExists (observed : Version)
  | store (source : ε)

inductive ReplaceError (ε : Type) where
  | conflict (observed : Option Version)
  | store (source : ε)

inductive Request where
  | get (location : Location)
  | create (location : Location) (bytes : Bytes)
  | replace (location : Location) (expected : Version) (bytes : Bytes)
deriving DecidableEq

inductive Effect where
  | store (request : Request)
  | nowMillis
  | nowV7
deriving DecidableEq

-- A reply says what happened at the store; `uncertain` is a write that took effect although
-- the caller is told of a store failure. The caller sees `result` only.
inductive CreateReply (ε : Type) where
  | created (version : Version)
  | alreadyExists (observed : Version)
  | failed (source : ε)
  | uncertain (source : ε) (version : Version)

inductive ReplaceReply (ε : Type) where
  | replaced (version : Version)
  | conflict (observed : Option Version)
  | failed (source : ε)
  | uncertain (source : ε) (version : Version)

def CreateReply.result {ε : Type} : CreateReply ε → Except (CreateError ε) Version
  | .created version => .ok version
  | .alreadyExists observed => .error (.alreadyExists observed)
  | .failed source => .error (.store source)
  | .uncertain source _ => .error (.store source)

def ReplaceReply.result {ε : Type} : ReplaceReply ε → Except (ReplaceError ε) Version
  | .replaced version => .ok version
  | .conflict observed => .error (.conflict observed)
  | .failed source => .error (.store source)
  | .uncertain source _ => .error (.store source)

def CreateReply.ofResult {ε : Type} : Except (CreateError ε) Version → CreateReply ε
  | .ok version => .created version
  | .error (.alreadyExists observed) => .alreadyExists observed
  | .error (.store source) => .failed source

def ReplaceReply.ofResult {ε : Type} : Except (ReplaceError ε) Version → ReplaceReply ε
  | .ok version => .replaced version
  | .error (.conflict observed) => .conflict observed
  | .error (.store source) => .failed source

def CreateReply.written {ε : Type} : CreateReply ε → Option Version
  | .created version => some version
  | .uncertain _ version => some version
  | _ => none

def ReplaceReply.written {ε : Type} : ReplaceReply ε → Option Version
  | .replaced version => some version
  | .uncertain _ version => some version
  | _ => none

abbrev Request.Response (ε : Type) : Request → Type
  | .get _ => Except ε (Option Object)
  | .create _ _ => CreateReply ε
  | .replace _ _ _ => ReplaceReply ε

abbrev Reply (ε : Type) : Effect → Type
  | .store request => request.Response ε
  | .nowMillis => UInt64
  | .nowV7 => Uuid

abbrev Action (ε : Type) : Type → Type := Program (Reply ε)

namespace Store

variable {ε : Type}

def get (location : Location) : Action ε (Except ε (Option Object)) :=
  .request (Effect.store (.get location))

def create (location : Location) (bytes : Bytes) : Action ε (Except (CreateError ε) Version) :=
  .perform (.store (.create location bytes)) (fun reply => .done (CreateReply.result reply))

def replace (location : Location) (expected : Version) (bytes : Bytes) :
    Action ε (Except (ReplaceError ε) Version) :=
  .perform (.store (.replace location expected bytes)) (fun reply => .done (ReplaceReply.result reply))

end Store

def nowMillis {ε : Type} : Action ε UInt64 := .request Effect.nowMillis

def Uuid.nowV7 {ε : Type} : Action ε Uuid := .request Effect.nowV7

abbrev Objects := Location → Option Object

def Objects.put (objects : Objects) (location : Location) (object : Object) : Objects :=
  Function.update objects location (some object)

inductive Atomic {ε : Type} (objects : Objects) : (q : Request) → q.Response ε → Objects → Prop
  | got (l : Location) : Atomic objects (.get l) (.ok (objects l)) objects
  | getFailed (l : Location) (e : ε) : Atomic objects (.get l) (.error e) objects
  | created (l : Location) (b : Bytes) (v : Version) (absent : objects l = none) :
      Atomic objects (.create l b) (.created v) (objects.put l ⟨b,v⟩)
  | alreadyExists (l : Location) (b : Bytes) (observed : Version) (present : objects l ≠ none) :
      Atomic objects (.create l b) (.alreadyExists observed) objects
  | createFailed (l : Location) (b : Bytes) (e : ε) :
      Atomic objects (.create l b) (.failed e) objects
  | createUncertain (l : Location) (b : Bytes) (e : ε) (v : Version) (absent : objects l = none) :
      Atomic objects (.create l b) (.uncertain e v) (objects.put l ⟨b,v⟩)
  | replaced (l : Location) (o : Object) (b : Bytes) (v : Version) (current : objects l = some o) :
      Atomic objects (.replace l o.version b) (.replaced v) (objects.put l ⟨b,v⟩)
  | conflict (l : Location) (x : Version) (b : Bytes) (observed : Option Version) :
      Atomic objects (.replace l x b) (.conflict observed) objects
  | replaceFailed (l : Location) (x : Version) (b : Bytes) (e : ε) :
      Atomic objects (.replace l x b) (.failed e) objects
  | replaceUncertain (l : Location) (o : Object) (b : Bytes) (e : ε) (v : Version)
      (current : objects l = some o) :
      Atomic objects (.replace l o.version b) (.uncertain e v) (objects.put l ⟨b,v⟩)

structure ObjectStore (ε : Type) where
  State : Type
  objects : State → Objects
  step : State → (q : Request) → q.Response ε → State → Prop
  atomic : ∀ {s : State} {q : Request} {r : q.Response ε} {s' : State},
    step s q r s' → Atomic (objects s) q r (objects s')

inductive ObjectStore.Env {ε : Type} (S : ObjectStore ε) :
    S.State → Event (Reply ε) → S.State → Prop
  | store {s s' : S.State} {i : ℕ} {q : Request} {r : q.Response ε} :
      S.step s q r s' → Env S s ⟨i,.store q,r⟩ s'
  | nowMillis {s : S.State} (i : ℕ) (now : UInt64) : Env S s ⟨i,.nowMillis,now⟩ s
  | nowV7 {s : S.State} (i : ℕ) (id : Uuid) : Env S s ⟨i,.nowV7,id⟩ s

end Objsds
