import Objsds.Core.Log
import Objsds.Core.Map
import Objsds.Queue.Procedures
import Objsds.Structure.Conflict

namespace Objsds

open Foundation

variable {ε V : Type}

abbrev Race := Version × Option Version

def Error.raced : Error ε → Option Race
  | .conflict expected observed => some (expected,observed)
  | _ => none

def Queue.Error.raced : Queue.Error ε → Option Race
  | .conflict expected observed => some (expected,observed)
  | _ => none

theorem Core.validate_raced {version : UInt32} {kind schema kind' schema' : String} {e : Error ε}
    (h : Core.validate version kind schema kind' schema' = .error e) : e.raced = none := by
  unfold Core.validate at h
  split at h
  · exact Except.error.inj h ▸ rfl
  · split at h
    · exact Except.error.inj h ▸ rfl
    · split at h
      · exact Except.error.inj h ▸ rfl
      · simp at h

theorem Queue.validate_raced {d : Queue.Document V} {schema : String} {e : Queue.Error ε}
    (h : Queue.validate d schema = .error e) : e.raced = none := by
  unfold Queue.validate at h
  split at h
  · exact Except.error.inj h ▸ rfl
  · split at h
    · exact Except.error.inj h ▸ rfl
    · split at h
      · exact Except.error.inj h ▸ rfl
      · split at h
        · exact Except.error.inj h ▸ rfl
        · simp at h

theorem Map.candid (self : Map V) (op : Map.Op V) :
    self.medium.Candid (Error.raced (ε := ε)) (Map.procedure op) where
  store := fun _ => rfl
  missing := rfl
  conflict := fun _ _ => rfl
  decode := by
    intro b e h
    rcases except_bind_eq_error.mp h with h | ⟨d,-,h⟩
    · obtain ⟨_,-,rfl⟩ := except_mapError_eq_error.mp h
      rfl
    · rcases except_bind_eq_error.mp h with h | ⟨_,-,h⟩
      · exact Core.validate_raced h
      · simp at h
  encode := by
    intro d e h
    obtain ⟨_,-,rfl⟩ := except_mapError_eq_error.mp h
    rfl
  responds := by
    cases op with
    | get key | entries | insert key value =>
        intro d
        simp [Plan.Responds]
    | insertIfAbsent key value | remove key =>
        intro d
        simp only
        split <;> simp [Plan.Responds]

theorem Log.candid (self : Log V) (op : Log.Op V) :
    self.medium.Candid (Error.raced (ε := ε)) (Log.procedure op) where
  store := fun _ => rfl
  missing := rfl
  conflict := fun _ _ => rfl
  decode := by
    intro b e h
    rcases except_bind_eq_error.mp h with h | ⟨d,-,h⟩
    · obtain ⟨_,-,rfl⟩ := except_mapError_eq_error.mp h
      rfl
    · rcases except_bind_eq_error.mp h with h | ⟨_,-,h⟩
      · exact Core.validate_raced h
      · split at h
        · exact Except.error.inj h ▸ rfl
        · simp at h
  encode := by
    intro d e h
    obtain ⟨_,-,rfl⟩ := except_mapError_eq_error.mp h
    rfl
  responds := by
    cases op <;> intro d <;> simp [Plan.Responds]

theorem Queue.claimPlan_responds (now expiresAtMillis : UInt64) (d : Queue.Document V) :
    (Queue.claimPlan now expiresAtMillis d).Responds
      (fun result => ∀ e, result = .error e → Queue.Error.raced (ε := ε) e = none) := by
  unfold Queue.claimPlan
  split
  · simp [Plan.Responds]
  · intro token
    simp only
    split
    · intro e he
      exact Except.error.inj he ▸ rfl
    · trivial

theorem Queue.ackPlan_responds (id : MessageId) (token : LeaseToken) (now : UInt64)
    (d : Queue.Document V) :
    (Queue.ackPlan id token now d).Responds
      (fun result => ∀ e, result = .error e → Queue.Error.raced (ε := ε) e = none) := by
  unfold Queue.ackPlan
  split
  · simp [Plan.Responds]
  · split
    · simp [Plan.Responds]
    · split
      · simp [Plan.Responds]
      · split <;> simp [Plan.Responds]

theorem Queue.candid (self : Queue V) (op : Queue.Op V) :
    self.medium.Candid (Queue.Error.raced (ε := ε)) (Queue.procedure op) where
  store := fun _ => rfl
  missing := rfl
  conflict := fun _ _ => rfl
  decode := by
    intro b e h
    rcases except_bind_eq_error.mp h with h | ⟨d,-,h⟩
    · obtain ⟨_,-,rfl⟩ := except_mapError_eq_error.mp h
      rfl
    · rcases except_bind_eq_error.mp h with h | ⟨_,-,h⟩
      · exact Queue.validate_raced h
      · simp at h
  encode := by
    intro d e h
    obtain ⟨_,-,rfl⟩ := except_mapError_eq_error.mp h
    rfl
  responds := by
    cases op with
    | publish value => exact fun d id => trivial
    | len | isEmpty =>
        intro d
        simp [Plan.Responds]
    | ack id token => exact fun now d => Queue.ackPlan_responds id token now d
    | claim leaseDuration =>
        unfold Queue.procedure
        simp only
        split
        · intro e he
          exact Except.error.inj he ▸ rfl
        · intro now
          simp only
          split
          · intro e he
            exact Except.error.inj he ▸ rfl
          · exact fun d => Queue.claimPlan_responds now _ d

inductive Access : Type 1 where
  | map {V : Type} (handle : Map V) (op : Map.Op V)
  | log {V : Type} (handle : Log V) (op : Log.Op V)
  | queue {V : Type} (handle : Queue V) (op : Queue.Op V)

inductive Ending where
  | succeeded
  | conflict (expected : Version) (observed : Option Version)
  | failed
deriving DecidableEq

def ending {Err α : Type} (raced : Err → Option Race) : Except Err α → Ending
  | .ok _ => .succeeded
  | .error e => (raced e).elim .failed (fun race => .conflict race.1 race.2)

namespace Access

def location : Access → Location
  | .map handle _ => handle.location
  | .log handle _ => handle.location
  | .queue handle _ => handle.location

def program : Access → Action ε Ending
  | .map handle op => ending Error.raced <$> handle.perform op
  | .log handle op => ending Error.raced <$> handle.perform op
  | .queue handle op => ending Queue.Error.raced <$> handle.perform op

end Access

section Endings

variable {D Err α : Type} {raced : Err → Option Race} {result : Except Err α}

theorem ending_conflict {expected : Version} {observed : Option Version}
    (h : ending raced result = .conflict expected observed) :
    ∃ e, result = .error e ∧ raced e = some (expected,observed) := by
  cases result with
  | ok a => simp [ending] at h
  | error e =>
      refine ⟨e,rfl,?_⟩
      cases hr : raced e with
      | none => simp [ending,hr] at h
      | some race =>
          simp only [ending,hr,Option.elim_some,Ending.conflict.injEq] at h
          obtain ⟨rfl,rfl⟩ := h
          rfl

theorem ending_lostRace {m : Medium D Err ε} {p : Procedure D Err α} (hc : m.Candid raced p)
    {h : List (Sigma (Reply ε))} {expected : Version} {observed : Option Version}
    (hf : (ending raced <$> p.program m).Follows h (.done (.conflict expected observed))) :
    ∃ h₀ o b, ⟨.store (.get m.location),.ok (some o)⟩ ∈ h₀ ∧ expected = o.version ∧
      h = h₀ ++ [⟨.store (.replace m.location o.version b),.conflict observed⟩] := by
  obtain ⟨result,hr,hend⟩ := Program.follows_map_done.mp hf
  obtain ⟨e,rfl,he⟩ := ending_conflict hend
  obtain ⟨h₀,o,d,d',reply,b,hh,-,hx,rfl⟩ :=
    (Procedure.stage_of_follows hr).finished.lostRace hc he
  exact ⟨h₀,o,b,hh.got,hx,rfl⟩

theorem Access.lostRace (access : Access) {h : List (Sigma (Reply ε))} {expected : Version}
    {observed : Option Version}
    (hf : access.program.Follows h (.done (.conflict expected observed))) :
    ∃ h₀ o b, ⟨.store (.get access.location),.ok (some o)⟩ ∈ h₀ ∧ expected = o.version ∧
      h = h₀ ++ [⟨.store (.replace access.location o.version b),.conflict observed⟩] := by
  cases access with
  | map handle op =>
      simp only [program,Map.perform_eq] at hf
      exact ending_lostRace (handle.candid op) hf
  | log handle op =>
      simp only [program,Log.perform_eq] at hf
      exact ending_lostRace (handle.candid op) hf
  | queue handle op =>
      simp only [program,Queue.perform_eq] at hf
      exact ending_lostRace (handle.candid op) hf

end Endings

end Objsds
