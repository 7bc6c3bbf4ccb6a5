import Objsds.Core.Builder
import Objsds.Queue.Builder
import Objsds.Queue.Changes

namespace Objsds

open Foundation

variable {ε V : Type}

inductive ErrorKind where
  | configuration
  | store
  | document
  | corrupt
  | notFound
  | alreadyExists
  | conflict
  | incompatible
  | invalidLeaseDuration
  | attemptOverflow
deriving DecidableEq

def Error.kind : Error ε → ErrorKind
  | .configuration _ => .configuration
  | .store _ => .store
  | .document (.corrupt _) => .corrupt
  | .document _ => .document
  | .notFound => .notFound
  | .alreadyExists _ => .alreadyExists
  | .conflict _ _ => .conflict
  | .incompatible _ => .incompatible

def Queue.Error.kind : Queue.Error ε → ErrorKind
  | .configuration _ => .configuration
  | .store _ => .store
  | .document _ => .document
  | .corrupt _ => .corrupt
  | .notFound => .notFound
  | .alreadyExists _ => .alreadyExists
  | .conflict _ _ => .conflict
  | .incompatible _ => .incompatible
  | .invalidLeaseDuration => .invalidLeaseDuration
  | .attemptOverflow => .attemptOverflow

inductive Answer where
  | positive
  | negative
deriving DecidableEq

def Map.Outcome.answer : Map.Outcome V → Answer
  | .insertIfAbsent (.occupied _) => .negative
  | .removed none => .negative
  | _ => .positive

def Queue.Outcome.answer : Queue.Outcome V → Answer
  | .claimed none => .negative
  | .ack .notFound => .negative
  | .ack .leaseMismatch => .negative
  | .ack .leaseExpired => .negative
  | _ => .positive

abbrev Verdict := Except ErrorKind Answer

def verdict {Err α : Type} (kind : Err → ErrorKind) (answer : α → Answer) :
    Except Err α → Verdict
  | .ok a => .ok (answer a)
  | .error e => .error (kind e)

def Verdict.refused (v : Verdict) : Prop := v ≠ .ok .positive ∧ v ≠ .error .store

inductive Call : Type 1 where
  | map {V : Type} (handle : Map V) (op : Map.Op V)
  | log {V : Type} (handle : Log V) (op : Log.Op V)
  | queue {V : Type} (handle : Queue V) (op : Queue.Op V)
  | mapLifecycle {V : Type} (builder : MapBuilder V) (step : Lifecycle)
  | logLifecycle {V : Type} (builder : LogBuilder V) (step : Lifecycle)
  | queueLifecycle {V : Type} (builder : QueueBuilder V) (step : Lifecycle)

def Call.program : Call → Action ε Verdict
  | .map handle op => verdict Error.kind Map.Outcome.answer <$> handle.perform op
  | .log handle op => verdict Error.kind (fun _ => .positive) <$> handle.perform op
  | .queue handle op => verdict Queue.Error.kind Queue.Outcome.answer <$> handle.perform op
  | .mapLifecycle builder step =>
      verdict Error.kind (fun _ => .positive) <$> (builder.run step).run
  | .logLifecycle builder step =>
      verdict Error.kind (fun _ => .positive) <$> (builder.run step).run
  | .queueLifecycle builder step =>
      verdict Queue.Error.kind (fun _ => .positive) <$> (builder.run step).run

end Objsds
