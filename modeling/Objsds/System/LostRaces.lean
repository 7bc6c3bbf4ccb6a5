import Objsds.Core.MapLinearizable
import Objsds.Filesystem.Refinement
import Objsds.Memory.Tokens
import Objsds.System.Races

namespace Objsds

open Foundation

namespace Filesystem

open FilesystemStore

def OnStructures {α : Type} (A : Action StoreError α) : Prop :=
  A.Only (fun e => ∀ rq, e = .store rq → Structural rq.location)

theorem OnStructures.serves {α : Type} {A : Action StoreError α} (root : Path)
    (h : OnStructures A) : (layout root).Serves A :=
  h.mono (fun _ he rq hrq => layout_expects root (he rq hrq))

end Filesystem

section LostRaces

variable {l : Location}

def rivals (b : Bytes) : ℕ → Action Empty Ending
  | 0 => (Access.map Map.orders (.insert "a" "1")).program
  | 1 => (Access.map Map.orders (.insert "k" "1")).program
  | 2 => (fun _ => .succeeded) <$> Store.create Map.orders.location b
  | _ => .done .succeeded

end LostRaces

end Objsds
