import Objsds.Foundation.Rehearsal
import Objsds.Memory.Store

namespace Objsds

open Foundation

namespace Memory

-- The identifiers and the times that will be handed out, each in this order.
structure Script where
  ids : List Uuid
  times : List UInt64
  state : State

def Script.answer (s : Script) (_ : ℕ) : (e : Effect) → Option (Reply Empty e × Script)
  | .store q => some ((handle s.state q).1,{ s with state := (handle s.state q).2 })
  | .nowMillis =>
      match s.times with
      | [] => none
      | now :: times => some (now,{ s with times := times })
  | .nowV7 =>
      match s.ids with
      | [] => none
      | id :: ids => some (id,{ s with ids := ids })

theorem Script.answer_env {s s' : Script} {i : ℕ} {e : Effect} {r : Reply Empty e}
    (h : s.answer i e = some (r,s')) : store.Env s.state ⟨i,e,r⟩ s'.state := by
  cases e with
  | store q =>
      obtain ⟨rfl,rfl⟩ := Prod.mk.inj (Option.some.inj h)
      exact .store rfl
  | nowMillis =>
      obtain ⟨ids,times,state⟩ := s
      cases times with
      | nil => simp [Script.answer] at h
      | cons now times =>
          obtain ⟨rfl,rfl⟩ := Prod.mk.inj (Option.some.inj h)
          exact .nowMillis i now
  | nowV7 =>
      obtain ⟨ids,times,state⟩ := s
      cases ids with
      | nil => simp [Script.answer] at h
      | cons id ids =>
          obtain ⟨rfl,rfl⟩ := Prod.mk.inj (Option.some.inj h)
          exact .nowV7 i id

theorem Script.run {α : Type} {turns : List (ℕ × ℕ)} {c : Config Script (Reply Empty) α}
    {good : Trace (Reply Empty) → Config store.State (Reply Empty) α → Bool}
    (h : plays Script.answer Script.state turns c good = true) :
    ∃ tr c', Run store.Env ⟨c.world.state,c.calls⟩ tr c' ∧ good tr c' = true :=
  plays_run Script.answer_env h

end Memory

end Objsds
