import Objsds.Queue.Procedures
import Objsds.Structure.Genesis

namespace Objsds

open Foundation

variable {ε V : Type}

structure QueueBuilder (V : Type) where
  ns : String
  name : String
  schema : Option String
  codec : Codec V
  serde : Serde

namespace QueueBuilder

def new (ns name : String) (codec : Codec V) (serde : Serde) : QueueBuilder V :=
  ⟨ns,name,none,codec,serde⟩

def withSchema (self : QueueBuilder V) (schema : String) : QueueBuilder V :=
  { self with schema := some schema }

def finish (self : QueueBuilder V) : Except Queue.BuildError (Queue V) := do
  if ¬ isPathSegment self.ns then throw .invalidNamespace
  if ¬ isPathSegment self.name then throw .invalidName
  let schema ← (self.schema.filter (fun schema => ¬ schema.isEmpty)).elim
    (.error .missingSchema) .ok
  let location ← (Location.structure self.ns "queues" self.name).mapError (fun _ => .invalidName)
  return ⟨location,schema,self.codec,self.serde⟩

def mapCreate : CreateError ε → Queue.Error ε
  | .alreadyExists observed => .alreadyExists observed
  | .store source => .store source

def create (self : QueueBuilder V) : Fallible ε (Queue.Error ε) (Queue V) := do
  let queue ← raise (self.finish.mapError Queue.Error.configuration)
  let bytes ← raise queue.emptyBytes
  let _ ← attempt (Store.create queue.location bytes) mapCreate
  return queue

def openExisting (self : QueueBuilder V) : Fallible ε (Queue.Error ε) (Queue V) := do
  let queue ← raise (self.finish.mapError Queue.Error.configuration)
  let _ ← queue.read
  return queue

def openOrCreate (self : QueueBuilder V) : Fallible ε (Queue.Error ε) (Queue V) := do
  let queue ← raise (self.finish.mapError Queue.Error.configuration)
  let found ← attempt (Store.get queue.location) Queue.Error.store
  if found.isSome then do
    let _ ← queue.read
    return queue
  else do
    let bytes ← raise queue.emptyBytes
    let created ← ExceptT.lift (Store.create queue.location bytes)
    match created with
    | .ok _ => return queue
    | .error (.alreadyExists _) => do
        let _ ← queue.read
        return queue
    | .error (.store error) => throw (.store error)

def run (self : QueueBuilder V) : Lifecycle → Fallible ε (Queue.Error ε) (Queue V)
  | .create => self.create
  | .openExisting => self.openExisting
  | .openOrCreate => self.openOrCreate

end QueueBuilder

def Queue.genesis (self : Queue V) : Genesis (Queue.Document V) (Queue.Error ε) ε where
  toMedium := self.medium
  emptyBytes := self.emptyBytes
  alreadyExists := .alreadyExists

namespace QueueBuilder

theorem read_run (queue : Queue V) :
    (do let _ ← queue.read; return queue : Fallible ε (Queue.Error ε) (Queue V)).run =
      (fun r => r.map (fun _ => queue)) <$> (queue.genesis (ε := ε)).inspect :=
  queue.genesis.inspect_eq queue.read_run queue

theorem run_eq (self : QueueBuilder V) (step : Lifecycle) :
    (self.run step : Fallible ε (Queue.Error ε) _).run =
      match self.finish with
      | .error e => .done (.error (.configuration e))
      | .ok queue => (fun r => r.map (fun _ => queue)) <$> queue.genesis.program step := by
  cases hf : self.finish with
  | error e => cases step <;> simp [run,create,openExisting,openOrCreate,hf]
  | ok queue =>
      cases step with
      | create =>
          simp only [run,create,hf,except_mapError_ok,raise_ok_bind,Genesis.program,
            Genesis.establish,Queue.genesis]
          cases queue.emptyBytes (ε := ε) with
          | error e => rfl
          | ok bytes =>
              simp only [raise_ok_bind,fallible_bind_run,attempt_run,store_create_bind,
                Program.perform_bind,map_eq_pure_bind]
              refine congrArg (Program.perform _) (funext fun r => ?_)
              cases r <;> rfl
      | openExisting =>
          simp only [run,openExisting,hf,except_mapError_ok,raise_ok_bind]
          exact read_run queue
      | openOrCreate =>
          simp only [run,openOrCreate,hf,except_mapError_ok,raise_ok_bind]
          rw [fallible_bind_run,attempt_run,store_get_bind,Program.perform_bind,Genesis.program,
            map_eq_pure_bind,Program.perform_bind]
          refine congrArg (Program.perform _) (funext fun r => ?_)
          obtain source | _ | object := r
          · rfl
          · simp only [except_mapError_ok,Program.done_bind,Option.isSome_none,
              Bool.false_eq_true,if_false,Genesis.establish,Queue.genesis]
            cases queue.emptyBytes (ε := ε) with
            | error e => rfl
            | ok bytes =>
                simp only [raise_ok_bind,fallible_bind_run,fallible_lift_run,store_create_bind,
                  Program.perform_bind]
                refine congrArg (Program.perform _) (funext fun r => ?_)
                cases r with
                | created version => rfl
                | failed source => rfl
                | uncertain source version => rfl
                | alreadyExists observed => exact (read_run queue).trans (map_eq_pure_bind ..)
          · exact (read_run queue).trans (map_eq_pure_bind ..)

end QueueBuilder

end Objsds
