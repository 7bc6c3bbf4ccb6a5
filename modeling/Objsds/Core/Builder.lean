import Objsds.Core.Log
import Objsds.Core.Map
import Objsds.Structure.Genesis

namespace Objsds

open Foundation

variable {ε V : Type}

def Core.location (ns kind name : String) : Except BuildError Location :=
  if ¬ isPathSegment name then .error .invalidName
  else (Location.structure ns kind name).mapError (fun _ => .invalidName)

namespace Core

variable {D H : Type}

def lifecycle (g : Genesis D (Error ε) ε) (read : Fallible ε (Error ε) (Version × D))
    (handle : H) : Lifecycle → Fallible ε (Error ε) H
  | .create => do
      createStructure g.location g.emptyBytes
      return handle
  | .openExisting => do
      openStructure read
      return handle
  | .openOrCreate => do
      openOrCreateStructure g.location g.emptyBytes read
      return handle

theorem openStructure_run {g : Genesis D (Error ε) ε} {read : Fallible ε (Error ε) (Version × D)}
    (hread : read.run = .perform (.store (.get g.location)) (fun r => .done (g.snapshot r))) :
    (openStructure read).run = g.inspect := by
  rw [openStructure,fallible_bind_run,hread,Genesis.inspect]
  simp only [Program.perform_bind,Program.done_bind]
  congr 1
  funext r
  cases g.snapshot r <;> rfl

theorem createStructure_run {g : Genesis D (Error ε) ε} (hs : g.storeError = .store)
    (ha : g.alreadyExists = .alreadyExists) :
    (createStructure g.location g.emptyBytes).run = g.program .create := by
  rw [createStructure,Genesis.program,Genesis.establish]
  cases g.emptyBytes with
  | error e => rfl
  | ok bytes =>
      simp only [raise_ok_bind,fallible_bind_run,create,attempt_run,store_create_bind,
        Program.perform_bind,hs,ha]
      congr 1
      funext r
      cases r <;> rfl

theorem openOrCreateStructure_run {g : Genesis D (Error ε) ε}
    {read : Fallible ε (Error ε) (Version × D)} (hs : g.storeError = .store)
    (hread : read.run = .perform (.store (.get g.location)) (fun r => .done (g.snapshot r))) :
    (openOrCreateStructure g.location g.emptyBytes read).run = g.program .openOrCreate := by
  rw [openOrCreateStructure,Genesis.program,fallible_bind_run,attempt_run,store_get_bind,
    Program.perform_bind]
  congr 1
  funext r
  obtain source | _ | object := r
  · rw [hs]; rfl
  · simp only [except_mapError_ok,Program.done_bind,Option.isSome_none,Bool.false_eq_true,
      if_false,Genesis.establish]
    cases g.emptyBytes with
    | error e => rfl
    | ok bytes =>
        simp only [raise_ok_bind,fallible_bind_run,fallible_lift_run,create,attempt_run,
          store_create_bind,Program.perform_bind,hs]
        congr 1
        funext r
        cases r with
        | created version => rfl
        | failed source => rfl
        | uncertain source version => rfl
        | alreadyExists observed => exact openStructure_run hread
  · exact openStructure_run hread

theorem lifecycle_run {g : Genesis D (Error ε) ε} {read : Fallible ε (Error ε) (Version × D)}
    (hs : g.storeError = .store) (ha : g.alreadyExists = .alreadyExists)
    (hread : read.run = .perform (.store (.get g.location)) (fun r => .done (g.snapshot r)))
    (handle : H) (step : Lifecycle) :
    (lifecycle g read handle step).run =
      (fun r => r.map (fun _ => handle)) <$> g.program step := by
  have hret : ∀ p : Fallible ε (Error ε) Unit, (do p; return handle : Fallible ε (Error ε) H).run =
      (fun r => r.map (fun _ => handle)) <$> p.run := by
    intro p
    rw [fallible_bind_run,map_eq_pure_bind]
    congr 1
    funext r
    cases r <;> rfl
  cases step with
  | create => rw [lifecycle,hret,createStructure_run hs ha]
  | openExisting => rw [lifecycle,hret,openStructure_run hread]; rfl
  | openOrCreate => rw [lifecycle,hret,openOrCreateStructure_run hs hread]

end Core

structure MapBuilder (V : Type) where
  location : Except BuildError Location
  schema : Option String
  codec : Codec V
  serde : Serde

namespace MapBuilder

def new (ns name : String) (codec : Codec V) (serde : Serde) : MapBuilder V :=
  ⟨Core.location ns "maps" name,none,codec,serde⟩

def withSchema (self : MapBuilder V) (schema : String) : MapBuilder V :=
  { self with schema := some schema }

def finish (self : MapBuilder V) : Except BuildError (Map V) := do
  let schema ← self.schema.elim (.error .missingSchema) .ok
  if schema.isEmpty then throw .missingSchema
  let location ← self.location
  return ⟨location,schema,self.codec,self.serde⟩

def create (self : MapBuilder V) : Fallible ε (Error ε) (Map V) := do
  let map ← raise (self.finish.mapError Error.configuration)
  Core.createStructure map.location map.emptyBytes
  return map

def openExisting (self : MapBuilder V) : Fallible ε (Error ε) (Map V) := do
  let map ← raise (self.finish.mapError Error.configuration)
  Core.openStructure map.read
  return map

def openOrCreate (self : MapBuilder V) : Fallible ε (Error ε) (Map V) := do
  let map ← raise (self.finish.mapError Error.configuration)
  Core.openOrCreateStructure map.location map.emptyBytes map.read
  return map

def run (self : MapBuilder V) : Lifecycle → Fallible ε (Error ε) (Map V)
  | .create => self.create
  | .openExisting => self.openExisting
  | .openOrCreate => self.openOrCreate

end MapBuilder

def Map.genesis (self : Map V) : Genesis (OwnedMapDocument V) (Error ε) ε where
  toMedium := self.medium
  emptyBytes := self.emptyBytes
  alreadyExists := .alreadyExists

theorem MapBuilder.run_eq (self : MapBuilder V) (step : Lifecycle) :
    (self.run step : Fallible ε (Error ε) _).run =
      match self.finish with
      | .error e => .done (.error (.configuration e))
      | .ok map => (fun r => r.map (fun _ => map)) <$> map.genesis.program step := by
  cases hf : self.finish with
  | error e => cases step <;> simp [run,create,openExisting,openOrCreate,hf]
  | ok map =>
      have hl := Core.lifecycle_run (g := map.genesis (ε := ε)) rfl rfl map.read_run map step
      refine Eq.trans ?_ hl
      cases step <;>
        simp only [run,create,openExisting,openOrCreate,hf,except_mapError_ok,raise_ok_bind] <;> rfl

structure LogBuilder (V : Type) where
  location : Except BuildError Location
  schema : Option String
  codec : Codec V
  serde : Serde

namespace LogBuilder

def new (ns name : String) (codec : Codec V) (serde : Serde) : LogBuilder V :=
  ⟨Core.location ns "logs" name,none,codec,serde⟩

def withSchema (self : LogBuilder V) (schema : String) : LogBuilder V :=
  { self with schema := some schema }

def finish (self : LogBuilder V) : Except BuildError (Log V) := do
  let schema ← self.schema.elim (.error .missingSchema) .ok
  if schema.isEmpty then throw .missingSchema
  let location ← self.location
  return ⟨location,schema,self.codec,self.serde⟩

def create (self : LogBuilder V) : Fallible ε (Error ε) (Log V) := do
  let log ← raise (self.finish.mapError Error.configuration)
  Core.createStructure log.location log.emptyBytes
  return log

def openExisting (self : LogBuilder V) : Fallible ε (Error ε) (Log V) := do
  let log ← raise (self.finish.mapError Error.configuration)
  Core.openStructure log.read
  return log

def openOrCreate (self : LogBuilder V) : Fallible ε (Error ε) (Log V) := do
  let log ← raise (self.finish.mapError Error.configuration)
  Core.openOrCreateStructure log.location log.emptyBytes log.read
  return log

def run (self : LogBuilder V) : Lifecycle → Fallible ε (Error ε) (Log V)
  | .create => self.create
  | .openExisting => self.openExisting
  | .openOrCreate => self.openOrCreate

end LogBuilder

def Log.genesis (self : Log V) : Genesis (LogDocument V) (Error ε) ε where
  toMedium := self.medium
  emptyBytes := self.emptyBytes
  alreadyExists := .alreadyExists

theorem LogBuilder.run_eq (self : LogBuilder V) (step : Lifecycle) :
    (self.run step : Fallible ε (Error ε) _).run =
      match self.finish with
      | .error e => .done (.error (.configuration e))
      | .ok log => (fun r => r.map (fun _ => log)) <$> log.genesis.program step := by
  cases hf : self.finish with
  | error e => cases step <;> simp [run,create,openExisting,openOrCreate,hf]
  | ok log =>
      have hl := Core.lifecycle_run (g := log.genesis (ε := ε)) rfl rfl log.read_run log step
      refine Eq.trans ?_ hl
      cases step <;>
        simp only [run,create,openExisting,openOrCreate,hf,except_mapError_ok,raise_ok_bind] <;> rfl

end Objsds
