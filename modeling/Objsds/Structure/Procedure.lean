import Objsds.Store.History
import Objsds.Structure.Fallible

namespace Objsds

open Foundation

variable {D Err ε α : Type}

structure Medium (D Err ε : Type) where
  location : Location
  decode : Bytes → Except Err D
  encode : D → Except Err Bytes
  notFound : Err
  storeError : ε → Err
  conflict : Version → Option Version → Err

inductive Plan (D Err α : Type) where
  | respond (result : Except Err α)
  | generate (next : Uuid → Plan D Err α)
  | commit (document : D) (reply : Version → α)

inductive Procedure (D Err α : Type) where
  | respond (result : Except Err α)
  | clock (next : UInt64 → Procedure D Err α)
  | transact (plan : D → Plan D Err α)

def Medium.settle (m : Medium D Err ε) (expected : Version) (reply : Version → α)
    (r : ReplaceReply ε) : Except Err α :=
  match r.result with
  | .ok version => .ok (reply version)
  | .error (.conflict observed) => .error (m.conflict expected observed)
  | .error (.store source) => .error (m.storeError source)

def Plan.program (m : Medium D Err ε) (expected : Version) :
    Plan D Err α → Action ε (Except Err α)
  | .respond result => .done result
  | .generate next => .perform .nowV7 (fun id => (next id).program m expected)
  | .commit document reply =>
      match m.encode document with
      | .error e => .done (.error e)
      | .ok bytes => .perform (.store (.replace m.location expected bytes))
          (fun r => .done (m.settle expected reply r))

def Medium.snapshot (m : Medium D Err ε) : Except ε (Option Object) → Except Err (Version × D)
  | .error source => .error (m.storeError source)
  | .ok none => .error m.notFound
  | .ok (some object) => (m.decode object.bytes).map (object.version,·)

def Medium.resume (m : Medium D Err ε) (plan : D → Plan D Err α)
    (r : Except ε (Option Object)) : Action ε (Except Err α) :=
  match m.snapshot r with
  | .error e => .done (.error e)
  | .ok (version,document) => (plan document).program m version

def Procedure.program (m : Medium D Err ε) : Procedure D Err α → Action ε (Except Err α)
  | .respond result => .done result
  | .clock next => .perform .nowMillis (fun now => (next now).program m)
  | .transact plan => .perform (.store (.get m.location)) (fun r => m.resume plan r)

theorem Medium.resume_ok {m : Medium D Err ε} {o : Object} {d : D} (hd : m.decode o.bytes = .ok d)
    (plan : D → Plan D Err α) :
    m.resume plan (.ok (some o)) = (plan d).program m o.version := by
  simp [Medium.resume,Medium.snapshot,hd,Except.map]

theorem transact_of_read {read : Fallible ε Err (Version × D)} {m : Medium D Err ε}
    (hread : read.run = .perform (.store (.get m.location)) (fun r => .done (m.snapshot r)))
    {f : Version × D → Fallible ε Err α} {plan : D → Plan D Err α}
    (h : ∀ version document, (f (version,document)).run = (plan document).program m version) :
    (read >>= f).run = (Procedure.transact plan).program m := by
  rw [fallible_bind_run,hread,Program.perform_bind]
  simp only [Program.done_bind,Procedure.program]
  congr 1
  funext r
  simp only [Medium.resume]
  cases m.snapshot r with
  | error e => rfl
  | ok found => exact h found.1 found.2

theorem generate_of_now {m : Medium D Err ε} {version : Version}
    {f : Uuid → Fallible ε Err α} {plan : Uuid → Plan D Err α}
    (h : ∀ id, (f id).run = (plan id).program m version) :
    (ExceptT.lift Uuid.nowV7 >>= f).run = (Plan.generate plan).program m version := by
  rw [fallible_bind_run,fallible_lift_run,nowV7_bind,Program.perform_bind]
  simp only [Program.done_bind,Plan.program,h]

theorem clock_of_now {m : Medium D Err ε} {f : UInt64 → Fallible ε Err α}
    {next : UInt64 → Procedure D Err α} (h : ∀ now, (f now).run = (next now).program m) :
    (ExceptT.lift nowMillis >>= f).run = (Procedure.clock next).program m := by
  rw [fallible_bind_run,fallible_lift_run,nowMillis_bind,Program.perform_bind]
  simp only [Program.done_bind,Procedure.program,h]

theorem commit_of_write {β : Type} {write : Fallible ε Err β} {m : Medium D Err ε} {d : D}
    {version : Version} {g : Version → β} (hwrite : write.run = (Plan.commit d g).program m version)
    (reply : β → α) :
    (reply <$> write).run = (Plan.commit d (fun v => reply (g v))).program m version := by
  rw [ExceptT.run_map,hwrite]
  simp only [Plan.program]
  cases m.encode d with
  | error e => rfl
  | ok bytes =>
      simp only [map_eq_pure_bind,Program.perform_bind,Program.done_bind,Program.pure_eq]
      congr 1
      funext r
      cases r <;> rfl

def Plan.after : Plan D Err α → List Uuid → Option (Plan D Err α)
  | plan, [] => some plan
  | .generate next, id :: ids => (next id).after ids
  | _, _ :: _ => none

def Procedure.after : Procedure D Err α → List UInt64 → Option (Procedure D Err α)
  | p, [] => some p
  | .clock next, now :: nows => (next now).after nows
  | _, _ :: _ => none

@[simp] theorem Plan.after_nil (plan : Plan D Err α) : plan.after [] = some plan := by
  cases plan <;> rfl

@[simp] theorem Procedure.after_nil (p : Procedure D Err α) : p.after [] = some p := by
  cases p <;> rfl

@[simp] theorem Plan.after_respond {result : Except Err α} {ids : List Uuid}
    {plan : Plan D Err α} :
    (Plan.respond result).after ids = some plan ↔ ids = [] ∧ plan = .respond result := by
  cases ids <;> simp [Plan.after,eq_comm]

@[simp] theorem Plan.after_commit {d : D} {reply : Version → α} {ids : List Uuid}
    {plan : Plan D Err α} :
    (Plan.commit d reply).after ids = some plan ↔ ids = [] ∧ plan = .commit d reply := by
  cases ids <;> simp [Plan.after,eq_comm]

theorem Plan.after_generate {next : Uuid → Plan D Err α} {ids : List Uuid}
    {plan : Plan D Err α} :
    (Plan.generate next).after ids = some plan ↔
      (ids = [] ∧ plan = .generate next) ∨
        ∃ id rest, ids = id :: rest ∧ (next id).after rest = some plan := by
  cases ids <;> simp [Plan.after,eq_comm]

@[simp] theorem Procedure.after_transact {f : D → Plan D Err α} {nows : List UInt64}
    {p : Procedure D Err α} :
    (Procedure.transact f).after nows = some p ↔ nows = [] ∧ p = .transact f := by
  cases nows <;> simp [Procedure.after,eq_comm]

@[simp] theorem Procedure.after_respond {result : Except Err α} {nows : List UInt64}
    {p : Procedure D Err α} :
    (Procedure.respond result).after nows = some p ↔ nows = [] ∧ p = .respond result := by
  cases nows <;> simp [Procedure.after,eq_comm]

theorem Procedure.after_clock {next : UInt64 → Procedure D Err α} {nows : List UInt64}
    {p : Procedure D Err α} :
    (Procedure.clock next).after nows = some p ↔
      (nows = [] ∧ p = .clock next) ∨
        ∃ now rest, nows = now :: rest ∧ (next now).after rest = some p := by
  cases nows <;> simp [Procedure.after,eq_comm]

theorem Plan.after_snoc {plan : Plan D Err α} {ids : List Uuid} {next : Uuid → Plan D Err α}
    (h : plan.after ids = some (.generate next)) (id : Uuid) :
    plan.after (ids ++ [id]) = some (next id) := by
  induction ids generalizing plan with
  | nil =>
      simp only [Plan.after,Option.some.injEq] at h
      subst h
      simp [Plan.after]
  | cons a ids ih => cases plan <;> simp_all [Plan.after]

theorem Procedure.after_snoc {p : Procedure D Err α} {nows : List UInt64}
    {next : UInt64 → Procedure D Err α} (h : p.after nows = some (.clock next)) (now : UInt64) :
    p.after (nows ++ [now]) = some (next now) := by
  induction nows generalizing p with
  | nil =>
      simp only [Procedure.after,Option.some.injEq] at h
      subst h
      simp [Procedure.after]
  | cons a nows ih => cases p <;> simp_all [Procedure.after]

def isRead (x : Sigma (Reply ε)) : Bool :=
  match x with
  | ⟨.store (.get _),_⟩ => true
  | ⟨.store _,_⟩ => false
  | _ => true

structure Procedure.Holds (m : Medium D Err ε) (p : Procedure D Err α)
    (h : List (Sigma (Reply ε))) (o : Object) (d : D) (plan : Plan D Err α) : Prop where
  got : ⟨.store (.get m.location),.ok (some o)⟩ ∈ h
  decoded : m.decode o.bytes = .ok d
  reads : ∀ x ∈ h, isRead x = true
  planned : ∃ first, p.after (readings h) = some (.transact first) ∧
    (first d).after (identifiers h) = some plan

inductive Procedure.Stage (m : Medium D Err ε) (p : Procedure D Err α)
    (h : List (Sigma (Reply ε))) : Action ε (Except Err α) → Prop
  | waiting (p' : Procedure D Err α) (reached : p.after (readings h) = some p')
      (clocks : ∀ x ∈ h, ∃ now, x = ⟨.nowMillis,now⟩) : Stage m p h (p'.program m)
  | missed (r : Except ε (Option Object)) (e : Err)
      (got : ⟨.store (.get m.location),r⟩ ∈ h) (bad : m.snapshot r = .error e)
      (reads : ∀ x ∈ h, isRead x = true) : Stage m p h (.done (.error e))
  | holding (o : Object) (d : D) (plan : Plan D Err α) (holds : p.Holds m h o d plan) :
      Stage m p h (plan.program m o.version)
  | settled (h₀ : List (Sigma (Reply ε))) (o : Object) (d d' : D) (reply : Version → α)
      (b : Bytes) (r : ReplaceReply ε) (holds : p.Holds m h₀ o d (.commit d' reply))
      (encoded : m.encode d' = .ok b)
      (written : h = h₀ ++ [⟨.store (.replace m.location o.version b),r⟩]) :
      Stage m p h (.done (m.settle o.version reply r))

section Stages

variable {m : Medium D Err ε} {p : Procedure D Err α} {h : List (Sigma (Reply ε))}
  {q : Action ε (Except Err α)}

theorem identifiers_of_clocks (hc : ∀ x ∈ h, ∃ now, x = ⟨.nowMillis,now⟩) : identifiers h = [] := by
  refine List.filterMap_eq_nil_iff.mpr ?_
  intro x hx
  obtain ⟨now,rfl⟩ := hc x hx
  rfl

theorem reads_snoc {x : Sigma (Reply ε)} (hr : ∀ x ∈ h, isRead x = true)
    (hx : isRead x = true) : ∀ y ∈ h ++ [x], isRead y = true := by
  intro y hy
  rcases List.mem_append.mp hy with hy | hy
  · exact hr y hy
  · rw [List.mem_singleton.mp hy]
    exact hx

theorem reads_of_clocks (hc : ∀ x ∈ h, ∃ now, x = ⟨.nowMillis,now⟩) :
    ∀ x ∈ h, isRead x = true := by
  intro x hx
  obtain ⟨now,rfl⟩ := hc x hx
  rfl

theorem Procedure.Stage.waiting_next {p' : Procedure D Err α} {e : Effect}
    {next : Reply ε e → Action ε (Except Err α)} (hr : p.after (readings h) = some p')
    (hc : ∀ x ∈ h, ∃ now, x = ⟨.nowMillis,now⟩) (he : p'.program m = .perform e next)
    (r : Reply ε e) : Stage m p (h ++ [⟨e,r⟩]) (next r) := by
  cases p' with
  | respond result => simp [Procedure.program] at he
  | clock cont =>
      simp only [Procedure.program,Program.perform.injEq] at he
      obtain ⟨rfl,hn⟩ := he
      rw [← eq_of_heq hn]
      refine .waiting (cont r) ?_ ?_
      · rw [readings_append]
        exact Procedure.after_snoc hr r
      · intro x hx
        rcases List.mem_append.mp hx with hx | hx
        · exact hc x hx
        · exact ⟨r,List.mem_singleton.mp hx⟩
  | transact plan =>
      simp only [Procedure.program,Program.perform.injEq] at he
      obtain ⟨rfl,hn⟩ := he
      rw [← eq_of_heq hn]
      have hreads := reads_snoc (reads_of_clocks hc)
        (x := ⟨.store (.get m.location),r⟩) rfl
      cases hs : m.snapshot r with
      | error e =>
          simp only [Medium.resume,hs]
          exact .missed r e (by simp) hs hreads
      | ok found =>
          obtain ⟨version,d⟩ := found
          simp only [Medium.resume,hs]
          match r,hs with
          | .ok (some o),hs =>
              cases hd : m.decode o.bytes with
              | error e => simp [Medium.snapshot,hd,Except.map] at hs
              | ok d₀ =>
                  simp only [Medium.snapshot,hd,Except.map,Except.ok.injEq,Prod.mk.injEq] at hs
                  obtain ⟨rfl,rfl⟩ := hs
                  refine .holding o d₀ (plan d₀) ⟨by simp,hd,hreads,plan,?_,?_⟩
                  · simpa [readings_append] using hr
                  · simp [identifiers_append,identifiers_of_clocks hc]

theorem Procedure.Stage.holding_next {o : Object} {d : D} {plan : Plan D Err α} {e : Effect}
    {next : Reply ε e → Action ε (Except Err α)} (hh : p.Holds m h o d plan)
    (he : plan.program m o.version = .perform e next)
    (r : Reply ε e) : Stage m p (h ++ [⟨e,r⟩]) (next r) := by
  cases plan with
  | respond result => simp [Plan.program] at he
  | generate cont =>
      simp only [Plan.program,Program.perform.injEq] at he
      obtain ⟨rfl,hn⟩ := he
      rw [← eq_of_heq hn]
      obtain ⟨first,hf,ha⟩ := hh.planned
      refine .holding o d (cont r) ⟨List.mem_append_left _ hh.got,hh.decoded,
        reads_snoc hh.reads rfl,first,?_,?_⟩
      · simpa [readings_append] using hf
      · rw [identifiers_append]
        exact Plan.after_snoc ha r
  | commit d' reply =>
      simp only [Plan.program] at he
      split at he
      · simp at he
      · rename_i b hb
        simp only [Program.perform.injEq] at he
        obtain ⟨rfl,hn⟩ := he
        rw [← eq_of_heq hn]
        exact .settled h o d d' reply b r hh hb rfl

theorem Procedure.stage_of_follows (hf : (p.program m).Follows h q) : p.Stage m h q := by
  induction h using List.reverseRecOn generalizing q with
  | nil =>
      rw [Program.follows_nil.mp hf]
      exact .waiting p (Procedure.after_nil p) (by simp)
  | append_singleton h x ih =>
      obtain ⟨e,r⟩ := x
      obtain ⟨next,hp,rfl⟩ := Program.follows_snoc.mp hf
      generalize hq : Program.perform e next = q₀ at hp
      cases ih hp with
      | waiting p' hr hc => exact Procedure.Stage.waiting_next hr hc hq.symm r
      | missed => simp at hq
      | holding o d plan hh => exact Procedure.Stage.holding_next hh hq.symm r
      | settled => simp at hq

end Stages

end Objsds
