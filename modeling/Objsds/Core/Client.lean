import Objsds.Core.Builder
import Objsds.Queue.Builder

namespace Objsds

open Foundation

variable {S V : Type}

structure Client (S : Type) where
  store : S
  ns : String

structure ClientBuilder (S : Type) where
  store : Option S
  ns : Option String

namespace ClientBuilder

def default : ClientBuilder S := ⟨none,none⟩

def withStore {T : Type} (self : ClientBuilder S) (store : T) : ClientBuilder T :=
  ⟨some store,self.ns⟩

def withNamespace (self : ClientBuilder S) (ns : String) : ClientBuilder S :=
  { self with ns := some ns }

def build (self : ClientBuilder S) : Except BuildError (Client S) := do
  let ns ← self.ns.elim (.error .missingNamespace) .ok
  if ¬ isPathSegment ns then throw .invalidNamespace
  let store ← self.store.elim (.error .missingStore) .ok
  return ⟨store,ns⟩

theorem build_ns {self : ClientBuilder S} {client : Client S} (h : self.build = .ok client) :
    isPathSegment client.ns = true := by
  obtain ⟨ns,-,h⟩ := except_bind_eq_ok.mp h
  cases hs : isPathSegment ns with
  | false => simp [hs,throw,throwThe,MonadExceptOf.throw] at h
  | true =>
      simp only [hs,not_true_eq_false,if_false] at h
      obtain ⟨store,-,h⟩ := except_bind_eq_ok.mp h
      obtain rfl := Except.ok.inj h
      exact hs

end ClientBuilder

namespace Client

def map (self : Client S) (name : String) (codec : Codec V) (serde : Serde) : MapBuilder V :=
  .new self.ns name codec serde

def log (self : Client S) (name : String) (codec : Codec V) (serde : Serde) : LogBuilder V :=
  .new self.ns name codec serde

end Client

end Objsds
