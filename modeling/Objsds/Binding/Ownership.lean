import Objsds.Binding.Handles
import Mathlib.Logic.Relation

namespace Objsds

open Foundation Relation

namespace Binding

variable {ε : Type}

def opening (self : Binding ε) (ns : String) : Operation → Option (Action ε (Except NapiError Structure))
  | .mapLifecycle lifecycle name schema =>
      some ((fun r => (r.map Structure.map).mapError self.operationError) <$>
        (((MapBuilder.new ns name valueCodec self.serde).withSchema schema).run lifecycle).run)
  | .logLifecycle lifecycle name schema =>
      some ((fun r => (r.map Structure.log).mapError self.operationError) <$>
        (((LogBuilder.new ns name valueCodec self.serde).withSchema schema).run lifecycle).run)
  | .queueLifecycle lifecycle name schema =>
      some ((fun r => (r.map Structure.queue).mapError self.queueError) <$>
        (((QueueBuilder.new ns name valueCodec self.serde).withSchema schema).run lifecycle).run)
  | _ => none

def enter (st : State) (handle : UInt32) : Except NapiError Structure → State
  | .ok x => st.insert handle x
  | .error _ => st

theorem execute_opening {self : Binding ε} {st : State} {op : Operation}
    {p : Action ε (Except NapiError Structure)} (h : self.opening st.ns op = some p) :
    self.execute st op = (fun r => (r.map (fun _ => self.handleJson st.nextHandle),
      enter st.next st.nextHandle r)) <$> p := by
  cases op with
  | mapLifecycle lifecycle name schema =>
      obtain rfl := Option.some.inj h
      rw [execute_mapLifecycle,Functor.map_map]
      congr 1
      funext r
      cases r <;> rfl
  | logLifecycle lifecycle name schema =>
      obtain rfl := Option.some.inj h
      rw [execute_logLifecycle,Functor.map_map]
      congr 1
      funext r
      cases r <;> rfl
  | queueLifecycle lifecycle name schema =>
      obtain rfl := Option.some.inj h
      rw [execute_queueLifecycle,Functor.map_map]
      congr 1
      funext r
      cases r <;> rfl
  | _ => simp [opening] at h

structure Wrapper where
  table : Table
  handle : UInt32
  closed : Bool
  finalized : Bool

def Wrapper.live (w : Wrapper) : Prop := w.closed = false ∧ w.finalized = false

inductive Progress (ε : Type) where
  | queued (op : Operation)
  | computing (handle : UInt32) (rest : Action ε (Except NapiError Structure))
  | computed (handle : UInt32) (result : Except NapiError Structure)
  | over

-- `rejected` is set when the promise of a call was rejected by its signal.
structure Task (ε : Type) where
  progress : Progress ε
  rejected : Bool

-- What napi does with a call whose signal is aborted once its compute has started: it rejects the
-- promise and drops the result, as the binding's README says, or it goes on, as napi 3.12.2 does.
inductive Late where
  | suppressed
  | ignored
deriving DecidableEq

def Late.rejects : Late → Bool → Bool
  | .suppressed, _ => true
  | .ignored, rejected => rejected

structure Client (S : ObjectStore ε) where
  state : State
  store : S.State
  tasks : ℕ → Option (Task ε)
  wrappers : ℕ → Option Wrapper

namespace Client

variable {S : ObjectStore ε}

def setTask (a : Client S) (i : ℕ) (task : Task ε) : Client S :=
  { a with tasks := Function.update a.tasks i (some task) }

def setWrapper (a : Client S) (i : ℕ) (w : Wrapper) : Client S :=
  { a with wrappers := Function.update a.wrappers i (some w) }

def released (a : Client S) (w : Wrapper) : Client S :=
  { a with state := (a.state.release w.handle w.table).1 }

-- The wrapper of call `i` has number `i`. A call whose signal is aborted beforehand makes no task.
inductive Step (self : Binding ε) (late : Late) : Client S → Client S → Prop
  | call (a : Client S) (i : ℕ) (op : Operation) (kind : op.isLifecycle = true)
      (new : a.tasks i = none) : Step self late a (a.setTask i ⟨.queued op,false⟩)
  | start {a : Client S} {i : ℕ} {op : Operation} {rejected : Bool}
      {p : Action ε (Except NapiError Structure)} (task : a.tasks i = some ⟨.queued op,rejected⟩)
      (program : self.opening a.state.ns op = some p) :
      Step self late a (setTask { a with state := a.state.next } i
        ⟨.computing a.state.nextHandle p,rejected⟩)
  | request {a : Client S} {i : ℕ} {handle : UInt32} {e : Effect}
      {next : Reply ε e → Action ε (Except NapiError Structure)} {rejected : Bool} {r : Reply ε e}
      {s : S.State} (task : a.tasks i = some ⟨.computing handle (.perform e next),rejected⟩)
      (answer : S.Env a.store ⟨i,e,r⟩ s) :
      Step self late a (setTask { a with store := s } i ⟨.computing handle (next r),rejected⟩)
  | finish {a : Client S} {i : ℕ} {handle : UInt32} {result : Except NapiError Structure}
      {rejected : Bool} (task : a.tasks i = some ⟨.computing handle (.done result),rejected⟩) :
      Step self late a (setTask { a with state := enter a.state handle result } i
        ⟨.computed handle result,rejected⟩)
  | resolve {a : Client S} {i : ℕ} {handle : UInt32} {x : Structure}
      (task : a.tasks i = some ⟨.computed handle (.ok x),false⟩) :
      Step self late a ((a.setTask i ⟨.over,false⟩).setWrapper i ⟨x.table,handle,false,false⟩)
  | reject {a : Client S} {i : ℕ} {handle : UInt32} {e : NapiError}
      (task : a.tasks i = some ⟨.computed handle (.error e),false⟩) :
      Step self late a (a.setTask i ⟨.over,true⟩)
  | drop {a : Client S} {i : ℕ} {handle : UInt32} {result : Except NapiError Structure}
      (task : a.tasks i = some ⟨.computed handle result,true⟩) :
      Step self late a (a.setTask i ⟨.over,true⟩)
  | cancel {a : Client S} {i : ℕ} {op : Operation} {rejected : Bool}
      (task : a.tasks i = some ⟨.queued op,rejected⟩) : Step self late a (a.setTask i ⟨.over,true⟩)
  | abort {a : Client S} {i : ℕ} {progress : Progress ε} {rejected : Bool}
      (task : a.tasks i = some ⟨progress,rejected⟩) (started : ∀ op, progress ≠ .queued op)
      (unsettled : progress ≠ .over) :
      Step self late a (a.setTask i ⟨progress,late.rejects rejected⟩)
  | close {a : Client S} {i : ℕ} {w : Wrapper} (wrapper : a.wrappers i = some w)
      (isOpen : w.closed = false) (kept : w.finalized = false) :
      Step self late a ((a.released w).setWrapper i { w with closed := true })
  | finalize {a : Client S} {i : ℕ} {w : Wrapper} (wrapper : a.wrappers i = some w)
      (isOpen : w.closed = false) (kept : w.finalized = false) :
      Step self late a ((a.released w).setWrapper i { w with finalized := true })
  | outside (a : Client S) (s : S.State) : Step self late a { a with store := s }

def start (S : ObjectStore ε) (ns : String) (s : S.State) : Client S :=
  ⟨State.new ns,s,fun _ => none,fun _ => none⟩

def Idle (a : Client S) : Prop := ∀ i task, a.tasks i = some task → task.progress = .over

def Owner (a : Client S) (t : Table) (handle : UInt32) : Prop :=
  ∃ i w, a.wrappers i = some w ∧ w.table = t ∧ w.handle = handle ∧ w.live

def Owned (a : Client S) : Prop :=
  ∀ t handle x, a.state.find t handle = some x → a.Owner t handle

-- No call is given up by its signal that has filled a table and is not resolved yet.
def Spared (a : Client S) : Prop := ∀ i handle x, a.tasks i ≠ some ⟨.computed handle (.ok x),true⟩

def Pending (a : Client S) (t : Table) (handle : UInt32) : Prop :=
  ∃ i x, a.tasks i = some ⟨.computed handle (.ok x),false⟩ ∧ x.table = t

structure Kept (a : Client S) : Prop where
  entries : ∀ t handle x, a.state.find t handle = some x → a.Owner t handle ∨ a.Pending t handle
  wrapped : ∀ i w, a.wrappers i = some w → ∃ task, a.tasks i = some task ∧ task.progress = .over

variable {self : Binding ε} {late : Late} {a b : Client S} {i : ℕ} {t : Table} {handle : UInt32} {task : Task ε}
  {w : Wrapper}

theorem setTask_tasks (a : Client S) (i : ℕ) (task : Task ε) :
    (a.setTask i task).tasks i = some task :=
  Function.update_self ..

theorem setTask_same (h : a.tasks i = some task) : a.setTask i task = a := by
  rw [Client.setTask,← h,Function.update_eq_self]

theorem Pending.withTask (h : a.Pending t handle)
    (hi : ∀ handle x, a.tasks i ≠ some ⟨.computed handle (.ok x),false⟩) :
    (a.setTask i task).Pending t handle := by
  obtain ⟨j,x,hj,hx⟩ := h
  have hne : j ≠ i := by
    rintro rfl
    exact hi _ _ hj
  exact ⟨j,x,by simpa [Client.setTask,hne] using hj,hx⟩

theorem Kept.unwrapped (h : a.Kept) (ht : a.tasks i = some task) (hp : task.progress ≠ .over) :
    a.wrappers i = none := by
  cases hw : a.wrappers i with
  | none => rfl
  | some w =>
      obtain ⟨task',ht',hover⟩ := h.wrapped i w hw
      rw [ht] at ht'
      exact absurd (Option.some.inj ht' ▸ hover) hp

theorem Kept.withTask (h : a.Kept) (hw : a.wrappers i = none)
    (hi : ∀ handle x, a.tasks i ≠ some ⟨.computed handle (.ok x),false⟩) :
    (a.setTask i task).Kept := by
  refine ⟨fun t handle x hx => (h.entries t handle x hx).imp id (fun hp => hp.withTask hi),?_⟩
  intro j v hj
  have hne : j ≠ i := by
    rintro rfl
    simp [Client.setTask,hw] at hj
  obtain ⟨task',ht,hover⟩ := h.wrapped j v hj
  exact ⟨task',by simpa [Client.setTask,hne] using ht,hover⟩

theorem Kept.started (h : a.Kept) (ht : a.tasks i = some task)
    (hp : task.progress ≠ .over) (hq : ∀ handle x, task.progress ≠ .computed handle (.ok x))
    {task' : Task ε} : (a.setTask i task').Kept := by
  refine h.withTask (h.unwrapped ht hp) ?_
  intro handle x hx
  rw [ht,Option.some.injEq] at hx
  exact hq handle x (by rw [hx])

theorem Kept.enter (h : a.Kept) {result : Except NapiError Structure}
    (ht : a.tasks i = some ⟨.computing handle (.done result),false⟩) :
    Kept (Client.setTask { a with state := Binding.enter a.state handle result } i
      ⟨.computed handle result,false⟩) := by
  have hset : Kept (a.setTask i ⟨.computed handle result,false⟩) :=
    h.started ht (by simp) (by simp)
  cases result with
  | error e => exact hset
  | ok x =>
      refine ⟨?_,hset.wrapped⟩
      intro t other y hy
      have hfind : (a.state.insert handle x).find t other = some y := hy
      rw [State.find_insert] at hfind
      split at hfind
      · rename_i heq
        obtain ⟨rfl,rfl⟩ := Prod.mk.inj heq
        exact .inr ⟨i,x,by simp [Client.setTask],rfl⟩
      · exact hset.entries t other y hfind

theorem Kept.resolve (h : a.Kept) {x : Structure}
    (ht : a.tasks i = some ⟨.computed handle (.ok x),false⟩) :
    ((a.setTask i ⟨.over,false⟩).setWrapper i ⟨x.table,handle,false,false⟩).Kept := by
  have hnone := h.unwrapped ht (by simp)
  refine ⟨?_,?_⟩
  · intro t other y hy
    rcases h.entries t other y hy with ⟨j,w,hj,hw⟩ | ⟨j,z,hj,hz⟩
    · have hne : j ≠ i := by
        rintro rfl
        simp [hnone] at hj
      exact .inl ⟨j,w,by simpa [setWrapper,Client.setTask,hne] using hj,hw⟩
    · by_cases hji : j = i
      · subst hji
        rw [ht] at hj
        simp only [Option.some.injEq,Task.mk.injEq,Progress.computed.injEq,Except.ok.injEq,
          and_true] at hj
        obtain ⟨rfl,rfl⟩ := hj
        exact .inl ⟨j,⟨x.table,handle,false,false⟩,by simp [setWrapper],hz,rfl,rfl,rfl⟩
      · exact .inr ⟨j,z,by simpa [setWrapper,Client.setTask,hji] using hj,hz⟩
  · intro j w hj
    by_cases hji : j = i
    · subst hji
      exact ⟨⟨.over,false⟩,by simp [setWrapper,Client.setTask],rfl⟩
    · obtain ⟨task',ht',hover⟩ := h.wrapped j w (by simpa [setWrapper,Client.setTask,hji] using hj)
      exact ⟨task',by simpa [setWrapper,Client.setTask,hji] using ht',hover⟩

theorem Kept.release (h : a.Kept) (hw : a.wrappers i = some w) {w' : Wrapper} :
    ((a.released w).setWrapper i w').Kept := by
  refine ⟨?_,?_⟩
  · intro t other y hy
    have hfind : (a.state.release w.handle w.table).1.find t other = some y := hy
    rw [State.find_release] at hfind
    split at hfind
    · simp at hfind
    · rename_i hne
      rcases h.entries t other y hfind with ⟨j,v,hj,rfl,rfl,hv⟩ | hp
      · have hji : j ≠ i := by
          rintro rfl
          rw [hw] at hj
          exact hne (by rw [Option.some.inj hj])
        exact .inl ⟨j,v,by simpa [setWrapper,released,hji] using hj,rfl,rfl,hv⟩
      · exact .inr hp
  · intro j v hj
    by_cases hji : j = i
    · subst hji
      exact h.wrapped j w hw
    · exact h.wrapped j v (by simpa [setWrapper,released,hji] using hj)

theorem Kept.step (h : a.Kept) (hs : Step self late a b) (hb : b.Spared) : b.Kept := by
  cases hs with
  | call i op kind new =>
      refine h.withTask ?_ (by simp [new])
      cases hw : a.wrappers i with
      | none => rfl
      | some w =>
          obtain ⟨task,ht,-⟩ := h.wrapped i w hw
          simp [new] at ht
  | start task program =>
      have hnext : Kept { a with state := a.state.next } := by
        refine ⟨fun t handle x hx => h.entries t handle x ?_,h.wrapped⟩
        rwa [← State.find_next]
      exact hnext.started task (by simp) (by simp)
  | @request i handle e next rejected r s task answer =>
      have hstore : Kept { a with store := s } := ⟨h.entries,h.wrapped⟩
      exact hstore.started task (by simp) (by simp)
  | @finish i handle result rejected task =>
      cases rejected with
      | false => exact h.enter task
      | true =>
          cases result with
          | ok x => exact absurd (Function.update_self ..) (hb i handle x)
          | error e => exact h.started task (by simp) (by simp)
  | resolve task => exact h.resolve task
  | reject task => exact h.started task (by simp) (by simp)
  | @drop i handle result task =>
      refine h.withTask (h.unwrapped task (by simp)) ?_
      intro handle x hx
      simp [task] at hx
  | cancel task => exact h.started task (by simp) (by simp)
  | @abort i progress rejected task started unsettled =>
      cases late with
      | ignored => exact (setTask_same task).symm ▸ h
      | suppressed =>
          refine h.started task unsettled ?_
          rintro handle x rfl
          exact absurd (Function.update_self ..) (hb i handle x)
  | close wrapper => exact h.release wrapper
  | finalize wrapper => exact h.release wrapper
  | outside s => exact ⟨h.entries,h.wrapped⟩

theorem kept_start (ns : String) (s : S.State) : (start S ns s).Kept := by
  refine ⟨?_,by simp [start]⟩
  intro t handle x hx
  cases t <;> simp [start,State.new,State.find] at hx

-- A call is rejected when it is over, and not before.
def Delivered (a : Client S) : Prop :=
  ∀ i task, a.tasks i = some task → task.rejected = true → task.progress = .over

theorem Delivered.spared (h : a.Delivered) : a.Spared :=
  fun i _ _ ht => absurd (h i _ ht rfl) (by simp)

theorem Delivered.withTask (h : a.Delivered) (hi : task.rejected = true → task.progress = .over) :
    (a.setTask i task).Delivered := by
  intro j task' hj
  by_cases hji : j = i
  · subst hji
    obtain rfl := Option.some.inj ((a.setTask_tasks j task).symm.trans hj)
    exact hi
  · exact h j task' (by simpa [Client.setTask,hji] using hj)

theorem Delivered.step (h : a.Delivered) (hs : Step self .ignored a b) : b.Delivered := by
  have hkeep : ∀ {i : ℕ} {progress progress' : Progress ε} {rejected : Bool} {c : Client S},
      c.tasks = a.tasks → a.tasks i = some ⟨progress,rejected⟩ → progress ≠ .over →
      (c.setTask i ⟨progress',rejected⟩).Delivered := by
    intro i progress progress' rejected c hc ht hp
    have hd : c.Delivered := fun j task hj => h j task (hc ▸ hj)
    exact hd.withTask (fun hr => absurd (h i _ ht hr) hp)
  cases hs with
  | call i op kind new => exact h.withTask (by simp)
  | start task program => exact hkeep rfl task (by simp)
  | request task answer => exact hkeep rfl task (by simp)
  | finish task => exact hkeep rfl task (by simp)
  | @resolve i handle x task =>
      have hd : (a.setTask i ⟨.over,false⟩).Delivered := h.withTask (by simp)
      exact hd
  | reject task => exact h.withTask (by simp)
  | drop task => exact h.withTask (by simp)
  | cancel task => exact h.withTask (by simp)
  | abort task started unsettled => exact hkeep rfl task unsettled
  | close wrapper => exact h
  | finalize wrapper => exact h
  | outside s => exact h

theorem no_handle_leaked (self : Binding ε) (late : Late) (ns : String) (s : S.State) {b : Client S}
    (hrun : ReflTransGen (fun a b => Step self late a b ∧ (late = .suppressed → b.Spared))
      (start S ns s) b) (hidle : b.Idle) : b.Owned := by
  have hkept : b.Kept ∧ (late = .ignored → b.Delivered) := by
    clear hidle
    induction hrun with
    | refl => exact ⟨kept_start ns s,fun _ => by simp [Delivered,start]⟩
    | tail _ hs ih =>
        obtain ⟨hkept,hdelivered⟩ := ih
        obtain ⟨hstep,hspared⟩ := hs
        cases late with
        | suppressed => exact ⟨hkept.step hstep (hspared rfl),by simp⟩
        | ignored =>
            have hd := (hdelivered rfl).step hstep
            exact ⟨hkept.step hstep hd.spared,fun _ => hd⟩
  intro t handle x hx
  rcases hkept.1.entries t handle x hx with howner | ⟨i,y,ht,-⟩
  · exact howner
  · exact absurd (hidle i _ ht) (by simp)

section Orders

structure Alone (a : Client S) (task : Task ε) : Prop where
  own : a.tasks 0 = some task
  others : ∀ i, i ≠ 0 → a.tasks i = none

theorem alone_setTask {a : Client S} (h : ∀ i, i ≠ 0 → a.tasks i = none) (task : Task ε) :
    (a.setTask 0 task).Alone task :=
  ⟨a.setTask_tasks 0 task,fun i hi => by simpa [Client.setTask,hi] using h i hi⟩

theorem Alone.withWrapper (h : a.Alone task) (i : ℕ) (w : Wrapper) :
    (a.setWrapper i w).Alone task :=
  ⟨h.own,h.others⟩

theorem Alone.idle (h : a.Alone task) (ht : task.progress = .over) : a.Idle := by
  intro i task' hi
  by_cases hz : i = 0
  · subst hz
    rw [h.own] at hi
    exact Option.some.inj hi ▸ ht
  · simp [h.others i hz] at hi

theorem requests_run (self : Binding ε) (late : Late) {p : Action ε (Except NapiError Structure)}
    {h : List (Sigma (Reply ε))} {s s' : S.State} {result : Except NapiError Structure}
    {rejected : Bool} (hs : Solo S.Env 0 s p h s' result) (hstore : a.store = s)
    (ha : a.Alone ⟨.computing handle p,rejected⟩) :
    ∃ b, ReflTransGen (Step self late) a b ∧ b.state = a.state ∧
      b.wrappers = a.wrappers ∧ b.Alone ⟨.computing handle (.done result),rejected⟩ := by
  induction hs generalizing a with
  | done => exact ⟨a,.refl,rfl,rfl,ha⟩
  | @perform s s₁ s'' e next r h result he _ ih =>
      subst hstore
      have halone : Alone (Client.setTask { a with store := s₁ } 0
          ⟨.computing handle (next r),rejected⟩) ⟨.computing handle (next r),rejected⟩ :=
        @alone_setTask _ _ { a with store := s₁ } ha.others _
      obtain ⟨b,hrun,hstate,hwrappers,hb⟩ := ih rfl halone
      exact ⟨b,.head (.request ha.own he) hrun,hstate,hwrappers,hb⟩

def opens : Operation := .mapLifecycle .create "orders" "v1"

theorem opens_solo : ∃ p h s x, (plain compact).opening "shop" opens = some p ∧
    Solo Memory.store.Env 0 Memory.State.default p h s (.ok x) := by
  obtain ⟨orders,-,horders,-⟩ := Session.exists_opened
  obtain ⟨p,hp⟩ : ∃ p, (plain compact).opening "shop" opens = some p := ⟨_,rfl⟩
  obtain ⟨h,s,hsolo⟩ := @Session.created_solo Memory.State.default (State.new "shop") _ _ horders rfl
  have hopening := @execute_opening _ _ (State.new "shop") _ _ hp
  rw [opens] at hopening
  rw [hopening] at hsolo
  obtain ⟨y,hy,he⟩ := Solo.map_iff.mp hsolo
  cases y with
  | error e => simp [Except.map] at he
  | ok x => exact ⟨p,h,s,x,hp,hy⟩

def begun (p : Action Empty (Except NapiError Structure)) : Client Memory.store :=
  Client.setTask ⟨(State.new "shop").next,Memory.State.default,fun _ => none,fun _ => none⟩ 0
    ⟨.computing 1 p,false⟩

theorem begun_alone (p : Action Empty (Except NapiError Structure)) :
    (begun p).Alone ⟨.computing 1 p,false⟩ :=
  alone_setTask (fun _ _ => rfl) _

theorem begun_run (late : Late) {p : Action Empty (Except NapiError Structure)}
    (hp : (plain compact).opening "shop" opens = some p) :
    ReflTransGen (Step (plain compact) late) (start Memory.store "shop" Memory.State.default)
      (begun p) := by
  let c := start Memory.store "shop" Memory.State.default
  have hcall : Step (plain compact) late c (c.setTask 0 ⟨.queued opens,false⟩) :=
    .call c 0 opens rfl rfl
  have hstart := @Step.start _ _ (plain compact) late _ _ _ _ _
    (c.setTask_tasks 0 ⟨.queued opens,false⟩) hp
  have hsame : Client.setTask { c.setTask 0 ⟨.queued opens,false⟩ with
      state := (State.new "shop").next } 0 ⟨.computing 1 p,false⟩ = begun p := by
    simp [begun,Client.setTask,c,start]
  rw [← hsame]
  exact (ReflTransGen.single hcall).tail hstart

theorem aborted_run (late : Late) : ∃ (b : Client Memory.store) (x : Structure),
    ReflTransGen (Step (plain compact) late) (start Memory.store "shop" Memory.State.default) b ∧
      b.state.find x.table 1 = some x ∧ (∀ i, b.wrappers i = none) ∧
      b.Alone ⟨.computed 1 (.ok x),late.rejects false⟩ := by
  obtain ⟨p,h,s,x,hp,hsolo⟩ := opens_solo
  have habort := (begun_run late hp).tail (.abort (begun_alone p).own (by simp) (by simp))
  obtain ⟨b,hrun,hstate,hwrappers,hb⟩ := requests_run (plain compact) late hsolo rfl
    (alone_setTask (begun_alone p).others ⟨.computing 1 p,late.rejects false⟩)
  refine ⟨_,x,(habort.trans hrun).tail (.finish hb.own),?_,fun i => ?_,
    @alone_setTask _ _ { b with state := Binding.enter b.state 1 (.ok x) } hb.others _⟩
  · change (b.state.insert 1 x).find x.table 1 = some x
    rw [State.find_insert,if_pos rfl]
  · exact congrFun hwrappers i

-- The promise resolves all the same, and the map it gives owns the entry.
theorem resolved_open_owned : ∃ b : Client Memory.store,
    ReflTransGen (Step (plain compact) .ignored) (start Memory.store "shop" Memory.State.default)
      b ∧ b.Idle ∧ (∃ t x, b.state.find t 1 = some x) ∧ b.Owned := by
  obtain ⟨b,x,hrun,hfind,-,halone⟩ := aborted_run .ignored
  have hresolve := hrun.tail (.resolve halone.own)
  have hidle := ((alone_setTask halone.others ⟨.over,false⟩).withWrapper 0
    ⟨x.table,1,false,false⟩).idle rfl
  exact ⟨_,hresolve,hidle,⟨x.table,x,hfind⟩,no_handle_leaked _ .ignored _ _
    (hresolve.lift id (fun _ _ hs => ⟨hs,by simp⟩)) hidle⟩

-- The promise is rejected; nobody is left to release what the call opens.
theorem aborted_open_leaks : ∃ b : Client Memory.store,
    ReflTransGen (Step (plain compact) .suppressed)
      (start Memory.store "shop" Memory.State.default) b ∧ b.Idle ∧ ¬ b.Owned := by
  obtain ⟨b,x,hrun,hfind,hnone,halone⟩ := aborted_run .suppressed
  refine ⟨_,hrun.tail (.drop halone.own),(alone_setTask halone.others _).idle rfl,?_⟩
  intro howned
  obtain ⟨i,w,hw,-⟩ := howned x.table 1 x hfind
  exact absurd ((hnone i).symm.trans hw) (by simp)

end Orders

end Client

end Binding

end Objsds
