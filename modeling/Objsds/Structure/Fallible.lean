import Objsds.Store.Interface

namespace Objsds

open Foundation

abbrev Fallible (ε Err : Type) : Type → Type := ExceptT Err (Action ε)

def raise {ε Err α : Type} (result : Except Err α) : Fallible ε Err α := .mk (.done result)

def attempt {ε Err α δ : Type} (action : Action ε (Except δ α)) (mapErr : δ → Err) :
    Fallible ε Err α :=
  .mk (do
    let result ← action
    .done (result.mapError mapErr))

section Fallible

variable {ε Err α β δ : Type}

@[simp] theorem raise_run (result : Except Err α) :
    (raise result : Fallible ε Err α).run = .done result := rfl

@[simp] theorem attempt_run (action : Action ε (Except δ α)) (mapErr : δ → Err) :
    (attempt action mapErr).run = action >>= fun result => .done (result.mapError mapErr) := rfl

theorem fallible_bind_run (x : Fallible ε Err α) (f : α → Fallible ε Err β) :
    (x >>= f).run = x.run >>= fun result =>
      match result with
      | .ok a => (f a).run
      | .error e => .done (.error e) := rfl

@[simp] theorem raise_ok_bind (a : α) (f : α → Fallible ε Err β) :
    (raise (.ok a) >>= f) = f a := rfl

@[simp] theorem raise_error_bind (e : Err) (f : α → Fallible ε Err β) :
    (raise (.error e) >>= f) = raise (.error e) := rfl

@[simp] theorem fallible_pure_run (a : α) : (pure a : Fallible ε Err α).run = .done (.ok a) := rfl

@[simp] theorem fallible_throw_run (e : Err) :
    (throw e : Fallible ε Err α).run = .done (.error e) := rfl

@[simp] theorem fallible_lift_run (x : Action ε α) :
    (ExceptT.lift x : Fallible ε Err α).run = x >>= fun a => .done (.ok a) := rfl

@[simp] theorem store_get_bind (l : Location) (f : Except ε (Option Object) → Action ε β) :
    (Store.get l >>= f) = .perform (.store (.get l)) f := rfl

@[simp] theorem store_create_bind (l : Location) (b : Bytes)
    (f : Except (CreateError ε) Version → Action ε β) :
    (Store.create l b >>= f) =
      .perform (.store (.create l b)) (fun r => f (CreateReply.result r)) := rfl

@[simp] theorem store_replace_bind (l : Location) (x : Version) (b : Bytes)
    (f : Except (ReplaceError ε) Version → Action ε β) :
    (Store.replace l x b >>= f) =
      .perform (.store (.replace l x b)) (fun r => f (ReplaceReply.result r)) := rfl

@[simp] theorem nowMillis_bind (f : UInt64 → Action ε β) :
    (nowMillis >>= f) = .perform .nowMillis f := rfl

@[simp] theorem nowV7_bind (f : Uuid → Action ε β) :
    (Uuid.nowV7 >>= f) = .perform .nowV7 f := rfl

end Fallible

end Objsds
