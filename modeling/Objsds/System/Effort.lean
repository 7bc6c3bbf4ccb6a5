import Objsds.Core.MapLinearizable
import Objsds.Foundation.Cost
import Objsds.Structure.Conflict
import Objsds.System.Isolation

namespace Objsds

open Foundation

variable {D Err ε α V : Type} {w : Effect → ℕ}

def Plan.Draws : Plan D Err α → ℕ → Prop
  | .respond _, _ => True
  | .generate next, k => ∃ m, k = m + 1 ∧ ∀ id, (next id).Draws m
  | .commit _ _, _ => True

def Procedure.Sparing : Procedure D Err α → ℕ → Prop
  | .respond _, _ => True
  | .clock next, k => ∃ m, k = m + 1 ∧ ∀ now, (next now).Sparing m
  | .transact plan, _ => ∀ d, (plan d).Draws 1

structure Tariff (w : Effect → ℕ) (l : Location) (clock id read write : ℕ) : Prop where
  nowMillis : w .nowMillis ≤ clock
  nowV7 : w .nowV7 ≤ id
  get : w (.store (.get l)) ≤ read
  create : ∀ b, w (.store (.create l b)) ≤ write
  replace : ∀ x b, w (.store (.replace l x b)) ≤ write

section Programs

variable {clock id read write k : ℕ}

theorem Plan.program_within {m : Medium D Err ε} {plan : Plan D Err α} (x : Version)
    (ht : Tariff w m.location clock id read write) (h : plan.Draws k) :
    (plan.program m x).Within w (k * id + write) := by
  induction plan generalizing k with
  | respond result => trivial
  | generate next ih =>
      obtain ⟨n,rfl,hn⟩ := h
      rw [Nat.succ_mul,Nat.add_comm _ id,Nat.add_assoc]
      exact .perform ht.nowV7 (fun id => ih id (hn id))
  | commit document reply =>
      rw [Plan.program]
      cases m.encode document with
      | error e => trivial
      | ok b =>
          rw [Nat.add_comm]
          exact .perform (ht.replace x b) (fun _ => trivial)

theorem Procedure.program_within {m : Medium D Err ε} {p : Procedure D Err α}
    (ht : Tariff w m.location clock id read write) (h : p.Sparing k) :
    (p.program m).Within w (k * clock + (read + (id + write))) := by
  induction p generalizing k with
  | respond result => trivial
  | clock next ih =>
      obtain ⟨n,rfl,hn⟩ := h
      rw [Nat.succ_mul,Nat.add_comm _ clock,Nat.add_assoc]
      exact .perform ht.nowMillis (fun now => ih now (hn now))
  | transact plan =>
      refine Program.Within.mono (.perform ht.get (fun r => ?_)) (Nat.le_add_left ..)
      simp only [Medium.resume]
      cases m.snapshot r with
      | error e => trivial
      | ok found =>
          have hplan := Plan.program_within found.1 ht (h found.2)
          rwa [Nat.one_mul] at hplan

theorem Genesis.inspect_within {g : Genesis D Err ε} (ht : Tariff w g.location clock id read write) :
    g.inspect.Within w read :=
  .perform (m := 0) ht.get (fun _ => trivial)

theorem Genesis.establish_within {g : Genesis D Err ε}
    {lost : Version → Action ε (Except Err Unit)}
    (ht : Tariff w g.location clock id read write) (hl : ∀ v, (lost v).Within w k) :
    (g.establish lost).Within w (write + k) := by
  rw [establish]
  cases g.emptyBytes with
  | error e => trivial
  | ok b =>
      refine .perform (ht.create b) (fun r => ?_)
      cases r with
      | alreadyExists observed => exact hl observed
      | created v | failed source | uncertain source v => trivial

theorem Genesis.program_within {g : Genesis D Err ε}
    (ht : Tariff w g.location clock id read write) (step : Lifecycle) :
    (g.program step).Within w (read + (write + read)) := by
  cases step with
  | create =>
      refine Program.Within.mono (establish_within (k := 0) ht (fun v => ?_)) (by omega)
      trivial
  | openExisting => exact (g.inspect_within ht).mono (by omega)
  | openOrCreate =>
      refine .perform ht.get (fun r => ?_)
      match r with
      | .error source => trivial
      | .ok (some o) => exact (g.inspect_within ht).mono (by omega)
      | .ok none => exact g.establish_within ht (fun _ => g.inspect_within ht)

end Programs

section Structures

theorem Map.procedure_sparing (op : Map.Op V) : (Map.procedure (ε := ε) op).Sparing 0 := by
  cases op with
  | get key | entries | insert key value => exact fun _ => trivial
  | insertIfAbsent key value | remove key =>
      intro d
      dsimp only
      split <;> trivial

theorem Log.procedure_sparing (op : Log.Op V) : (Log.procedure (ε := ε) op).Sparing 0 := by
  cases op with
  | append value => exact fun _ => ⟨0,rfl,fun _ => trivial⟩
  | get id | records | recordsAfter id => exact fun _ => trivial

theorem Queue.procedure_sparing (op : Queue.Op V) : (Queue.procedure (ε := ε) op).Sparing 1 := by
  cases op with
  | publish value => exact fun _ => ⟨0,rfl,fun _ => trivial⟩
  | len | isEmpty => exact fun _ => trivial
  | ack id token =>
      refine ⟨0,rfl,fun now d => ?_⟩
      rw [ackPlan]
      split
      · trivial
      · split
        · trivial
        · split
          · trivial
          · split <;> trivial
  | claim leaseDuration =>
      rw [procedure]
      split
      · trivial
      · refine ⟨0,rfl,fun now => ?_⟩
        dsimp only
        split
        · trivial
        · intro d
          rw [claimPlan]
          split
          · trivial
          · refine ⟨0,rfl,fun token => ?_⟩
            dsimp only
            split <;> trivial

theorem Call.program_within (call : Call) (clock id read write : ℕ)
    (ht : ∀ t, call.handle = some t → Tariff w t.location clock id read write) :
    (call.program (ε := ε)).Within w (clock + id + 2 * read + write) := by
  have hprocedure : 1 * clock + (read + (id + write)) ≤ clock + id + 2 * read + write := by omega
  have hfree : 0 * clock + (read + (id + write)) ≤ clock + id + 2 * read + write := by omega
  have hgenesis : read + (write + read) ≤ clock + id + 2 * read + write := by omega
  cases call with
  | map handle op =>
      rw [Call.program,Map.perform_eq]
      have ht := ht (.map handle) rfl
      exact ((Procedure.program_within (m := handle.medium) ht
        (Map.procedure_sparing op)).mono hfree).map
  | log handle op =>
      rw [Call.program,Log.perform_eq]
      have ht := ht (.log handle) rfl
      exact ((Procedure.program_within (m := handle.medium) ht
        (Log.procedure_sparing op)).mono hfree).map
  | queue handle op =>
      rw [Call.program,Queue.perform_eq]
      have ht := ht (.queue handle) rfl
      exact ((Procedure.program_within (m := handle.medium) ht
        (Queue.procedure_sparing op)).mono hprocedure).map
  | mapLifecycle builder step =>
      rw [Call.program,MapBuilder.run_eq]
      cases hb : builder.finish with
      | error e => trivial
      | ok handle =>
          have ht := ht (.map handle) (by rw [Call.handle,hb]; rfl)
          exact ((Genesis.program_within (g := handle.genesis) ht step).mono hgenesis).map.map
  | logLifecycle builder step =>
      rw [Call.program,LogBuilder.run_eq]
      cases hb : builder.finish with
      | error e => trivial
      | ok handle =>
          have ht := ht (.log handle) (by rw [Call.handle,hb]; rfl)
          exact ((Genesis.program_within (g := handle.genesis) ht step).mono hgenesis).map.map
  | queueLifecycle builder step =>
      rw [Call.program,QueueBuilder.run_eq]
      cases hb : builder.finish with
      | error e => trivial
      | ok handle =>
          have ht := ht (.queue handle) (by rw [Call.handle,hb]; rfl)
          exact ((Genesis.program_within (g := handle.genesis) ht step).mono hgenesis).map.map

end Structures

section Retries

def Effect.reads : Effect → Bool
  | .store (.get _) => true
  | _ => false

def Effect.writes : Effect → Bool
  | .store (.create _ _) => true
  | .store (.replace _ _ _) => true
  | _ => false

variable {W β : Type} {env : W → Event (Reply ε) → W → Prop} {calls : ℕ → Call} {s : W}
  {tr : Trace (Reply ε)} {c : Config W (Reply ε) Verdict}

theorem never_retries (h : Run env ⟨s,fun i => (calls i).program⟩ tr c) (i : ℕ) :
    (Trace.of i tr).countP (fun x => x.1.writes) ≤ 1 ∧
      (Trace.of i tr).countP (fun x => x.1.reads) ≤ 2 ∧
      (Trace.of i tr).countP (fun x => x.1 = .nowMillis) ≤ 1 ∧
      (Trace.of i tr).countP (fun x => x.1 = .nowV7) ≤ 1 := by
  have hcount : ∀ (p : Effect → Bool) (clock id read write : ℕ),
      (∀ l, Tariff (fun e => (p e).toNat) l clock id read write) →
        (Trace.of i tr).countP (fun x => p x.1) ≤ clock + id + 2 * read + write :=
    fun p _ _ _ _ ht => h.of_countP_le ((calls i).program_within _ _ _ _ (fun t _ => ht t.location))
  refine ⟨hcount Effect.writes 0 0 0 1 (fun l => ?_),hcount Effect.reads 0 0 1 0 (fun l => ?_),
    hcount (· = .nowMillis) 1 0 0 0 (fun l => ?_),hcount (· = .nowV7) 0 1 0 0 (fun l => ?_)⟩
  all_goals constructor <;> simp [Effect.writes,Effect.reads]

theorem refused_insert_not_retried :
    ∃ (b : Bytes) (tr : Trace (Reply Empty)) (c : Config Unit (Reply Empty) Verdict),
      Run (fun _ _ _ => True) ⟨(),fun _ => (Call.map Map.orders (.insert "a" "1")).program⟩ tr c ∧
      c.calls 0 = .done (.error .conflict) ∧
      ⟨0,.store (.replace Map.orders.location ⟨"1"⟩ b),.conflict none⟩ ∈ tr ∧
      (Trace.of 0 tr).countP (fun x => x.1.writes) ≤ 1 := by
  let blank : OwnedMapDocument String := ⟨⟨Core.FORMAT_VERSION,"map","v1"⟩,.empty⟩
  have hrt : Map.orders.codec.RoundTrips 2 := textCodec_roundTrips (by decide)
  obtain ⟨b,-,hd⟩ := Map.encode_roundTrip (ε := Empty) hrt (d := blank) rfl
  obtain ⟨b',hb,-⟩ := Map.encode_roundTrip (ε := Empty) hrt
    (d := ⟨blank.toHeader,blank.entries.insert "a" "1"⟩) rfl
  let l := Map.orders.location
  let tr : Trace (Reply Empty) :=
    [⟨0,.store (.get l),.ok (some ⟨b,⟨"1"⟩⟩)⟩,⟨0,.store (.replace l ⟨"1"⟩ b'),.conflict none⟩]
  let insert : Action Empty Verdict := (Call.map Map.orders (.insert "a" "1")).program
  let plan (d : OwnedMapDocument String) :
      Plan (OwnedMapDocument String) (Error Empty) (Map.Outcome String) :=
    .commit ⟨d.toHeader,d.entries.insert "a" "1"⟩ .version
  have hplan : plan blank = .commit ⟨blank.toHeader,blank.entries.insert "a" "1"⟩ .version := rfl
  let ends (i : ℕ) : Action Empty Verdict := if i = 0 then .done (.error .conflict) else insert
  have hcalls : ∀ i, insert.Follows (Trace.of i tr) (ends i) := by
    intro i
    cases i with
    | zero =>
        change (verdict Error.kind Map.Outcome.answer <$> Map.orders.perform _).Follows _ _
        rw [Map.perform_eq]
        have hown := transact_commits (m := Map.orders.medium) (o := ⟨b,⟨"1"⟩⟩) (b := b') hd hplan hb
          (.conflict none)
        exact Program.follows_map_done.mpr ⟨_,hown,rfl⟩
    | succ i =>
        have hnone : Trace.of (i + 1) tr = [] := by simp [Trace.of,tr]
        rw [hnone]
        exact .refl _
  have hrun : Run (fun _ _ _ => True) ⟨(),fun _ => insert⟩ tr ⟨(),ends⟩ :=
    Run.of_follows (w := fun _ => ()) (fun _ _ => trivial) rfl hcalls
  exact ⟨b',tr,_,hrun,rfl,by simp [tr,l],(never_retries hrun 0).1⟩

end Retries

end Objsds
