import Objsds.Binding.Execute
import Objsds.Json.Compact
import Objsds.Structure.Uncontended

namespace Objsds

open Foundation

namespace Binding

inductive Table where
  | maps
  | logs
  | queues
deriving DecidableEq

inductive Structure where
  | map (map : Map Value)
  | log (log : Log Value)
  | queue (queue : Queue Value)

def Structure.table : Structure → Table
  | .map _ => .maps
  | .log _ => .logs
  | .queue _ => .queues

namespace State

def find (st : State) : Table → UInt32 → Option Structure
  | .maps, handle => (st.maps handle).map .map
  | .logs, handle => (st.logs handle).map .log
  | .queues, handle => (st.queues handle).map .queue

def next (st : State) : State := { st with nextHandle := st.nextHandle + 1 }

def insert (st : State) (handle : UInt32) : Structure → State
  | .map map => { st with maps := Function.update st.maps handle (some map) }
  | .log log => { st with logs := Function.update st.logs handle (some log) }
  | .queue queue => { st with queues := Function.update st.queues handle (some queue) }

def release (st : State) (handle : UInt32) : Table → State × Bool
  | .maps => ({ st with maps := Function.update st.maps handle none },(st.maps handle).isSome)
  | .logs => ({ st with logs := Function.update st.logs handle none },(st.logs handle).isSome)
  | .queues =>
      ({ st with queues := Function.update st.queues handle none },(st.queues handle).isSome)

@[simp] theorem find_next (st : State) (t : Table) (handle : UInt32) :
    st.next.find t handle = st.find t handle := by
  cases t <;> rfl

@[simp] theorem nextHandle_insert (st : State) (handle : UInt32) (x : Structure) :
    (st.insert handle x).nextHandle = st.nextHandle := by
  cases x <;> rfl

@[simp] theorem nextHandle_release (st : State) (handle : UInt32) (t : Table) :
    (st.release handle t).1.nextHandle = st.nextHandle := by
  cases t <;> rfl

theorem find_insert (st : State) (handle : UInt32) (x : Structure) (t : Table) (other : UInt32) :
    (st.insert handle x).find t other =
      if (t,other) = (x.table,handle) then some x else st.find t other := by
  by_cases h : other = handle
  · subst h
    cases x <;> cases t <;> simp [insert,find,Structure.table]
  · cases x <;> cases t <;> simp [insert,find,Structure.table,h]

theorem release_snd (st : State) (handle : UInt32) (t : Table) :
    (st.release handle t).2 = (st.find t handle).isSome := by
  cases t <;> simp [release,find]

theorem find_release (st : State) (handle : UInt32) (t t' : Table) (other : UInt32) :
    (st.release handle t).1.find t' other =
      if (t',other) = (t,handle) then none else st.find t' other := by
  by_cases h : other = handle
  · subst h
    cases t <;> cases t' <;> simp [release,find]
  · cases t <;> cases t' <;> simp [release,find,h]

end State

variable {ε : Type}

def target (self : Binding ε) (st : State) : Operation → Option Structure
  | .mapLifecycle _ name schema =>
      ((MapBuilder.new st.ns name valueCodec self.serde).withSchema schema).finish.toOption.map .map
  | .logLifecycle _ name schema =>
      ((LogBuilder.new st.ns name valueCodec self.serde).withSchema schema).finish.toOption.map .log
  | .queueLifecycle _ name schema =>
      ((QueueBuilder.new st.ns name valueCodec self.serde).withSchema schema).finish.toOption.map
        .queue
  | _ => none

def Operation.isLifecycle : Operation → Bool
  | .mapLifecycle _ _ _ => true
  | .logLifecycle _ _ _ => true
  | .queueLifecycle _ _ _ => true
  | _ => false

def Operation.slot : Operation → Option (Table × UInt32)
  | .mapGet handle _ => some (.maps,handle)
  | .mapEntries handle => some (.maps,handle)
  | .mapInsert handle _ _ => some (.maps,handle)
  | .mapInsertIfAbsent handle _ _ => some (.maps,handle)
  | .mapRemove handle _ => some (.maps,handle)
  | .logAppend handle _ => some (.logs,handle)
  | .logGet handle _ => some (.logs,handle)
  | .logRecords handle => some (.logs,handle)
  | .logRecordsAfter handle _ => some (.logs,handle)
  | .queuePublish handle _ => some (.queues,handle)
  | .queueClaim handle _ => some (.queues,handle)
  | .queueAck handle _ _ => some (.queues,handle)
  | .queueLen handle => some (.queues,handle)
  | .queueIsEmpty handle => some (.queues,handle)
  | .mapLifecycle _ _ _ | .logLifecycle _ _ _ | .queueLifecycle _ _ _ => none

section Own

def onOwnMap (self : Binding ε) (map : Map Value) :
    Except NapiError (Map.Op Value) → Action ε (Except NapiError String)
  | .error error => .done (.error error)
  | .ok op => answer self.mapText self.operationError (map.perform op)

def onOwnLog (self : Binding ε) (log : Log Value) :
    Except NapiError (Log.Op Value) → Action ε (Except NapiError String)
  | .error error => .done (.error error)
  | .ok op => answer self.logText self.operationError (log.perform op)

def onOwnQueue (self : Binding ε) (queue : Queue Value) :
    Except NapiError (Queue.Op Value) → Action ε (Except NapiError String)
  | .error error => .done (.error error)
  | .ok op => answer self.queueText self.queueError (queue.perform op)

-- A data operation on a structure itself, whatever the tables of the client hold.
def perform (self : Binding ε) : Structure → Operation → Action ε (Except NapiError String)
  | .map map, .mapGet _ key => self.onOwnMap map (.ok (.get key))
  | .map map, .mapEntries _ => self.onOwnMap map (.ok .entries)
  | .map map, .mapInsert _ key valueJson =>
      self.onOwnMap map ((self.parseValue valueJson).map (.insert key))
  | .map map, .mapInsertIfAbsent _ key valueJson =>
      self.onOwnMap map ((self.parseValue valueJson).map (.insertIfAbsent key))
  | .map map, .mapRemove _ key => self.onOwnMap map (.ok (.remove key))
  | .log log, .logAppend _ valueJson =>
      self.onOwnLog log ((self.parseValue valueJson).map .append)
  | .log log, .logGet _ id => self.onOwnLog log ((self.parseLogId id).map .get)
  | .log log, .logRecords _ => self.onOwnLog log (.ok .records)
  | .log log, .logRecordsAfter _ id => self.onOwnLog log ((self.parseLogId id).map .recordsAfter)
  | .queue queue, .queuePublish _ valueJson =>
      self.onOwnQueue queue ((self.parseValue valueJson).map .publish)
  | .queue queue, .queueClaim _ leaseMillis =>
      self.onOwnQueue queue ((self.leaseDuration leaseMillis).map .claim)
  | .queue queue, .queueAck _ id token =>
      self.onOwnQueue queue (do
        let id ← self.parseMessageId id
        let token ← self.parseLeaseToken token
        return .ack id token)
  | .queue queue, .queueLen _ => self.onOwnQueue queue (.ok .len)
  | .queue queue, .queueIsEmpty _ => self.onOwnQueue queue (.ok .isEmpty)
  | _, _ => .done (.error self.invalidHandle)

variable {self : Binding ε} {st : State} {handle : UInt32}

theorem onMap_found {map : Map Value} (h : st.maps handle = some map)
    (op : Except NapiError (Map.Op Value)) : self.onMap st handle op = self.onOwnMap map op := by
  cases op <;> simp only [onMap,h,onOwnMap]

theorem onLog_found {log : Log Value} (h : st.logs handle = some log)
    (op : Except NapiError (Log.Op Value)) : self.onLog st handle op = self.onOwnLog log op := by
  cases op <;> simp only [onLog,h,onOwnLog]

theorem onQueue_found {queue : Queue Value} (h : st.queues handle = some queue)
    (op : Except NapiError (Queue.Op Value)) :
    self.onQueue st handle op = self.onOwnQueue queue op := by
  cases op <;> simp only [onQueue,h,onOwnQueue]

theorem execute_perform {x : Structure} {op : Operation} (hfind : st.find x.table handle = some x)
    (hop : op.slot = some (x.table,handle)) :
    self.execute st op = keep st (self.perform x op) := by
  cases x with
  | map map =>
      have hmap : st.maps handle = some map := by simpa [State.find,Structure.table] using hfind
      cases op with
      | mapGet | mapEntries | mapInsert | mapInsertIfAbsent | mapRemove =>
          obtain rfl := (Prod.mk.inj (Option.some.inj hop)).2
          rw [execute,onMap_found hmap]
          rfl
      | _ => simp [Operation.slot,Structure.table] at hop
  | log log =>
      have hlog : st.logs handle = some log := by simpa [State.find,Structure.table] using hfind
      cases op with
      | logAppend | logGet | logRecords | logRecordsAfter =>
          obtain rfl := (Prod.mk.inj (Option.some.inj hop)).2
          rw [execute,onLog_found hlog]
          rfl
      | _ => simp [Operation.slot,Structure.table] at hop
  | queue queue =>
      have hqueue : st.queues handle = some queue := by
        simpa [State.find,Structure.table] using hfind
      cases op with
      | queuePublish | queueAck | queueLen | queueIsEmpty =>
          obtain rfl := (Prod.mk.inj (Option.some.inj hop)).2
          rw [execute,onQueue_found hqueue]
          rfl
      | queueClaim other leaseMillis =>
          obtain rfl := (Prod.mk.inj (Option.some.inj hop)).2
          rw [execute,perform]
          -- A bad duration is refused before the handle is looked up.
          cases self.leaseDuration leaseMillis with
          | error e => rfl
          | ok duration => exact congrArg (keep st) (onQueue_found hqueue _)
      | _ => simp [Operation.slot,Structure.table] at hop

end Own

-- The common end of the three lifecycle arms: the number is already taken from the counter.
def register {Err H : Type} (self : Binding ε) (st : State) (wrap : H → Structure)
    (fail : Err → NapiError) : Except Err H → Except NapiError String × State
  | .error e => (.error (fail e),st.next)
  | .ok x => (.ok (self.handleJson st.nextHandle),st.next.insert st.nextHandle (wrap x))

section Effects

variable {self : Binding ε} {S : ObjectStore ε} {i : ℕ} {s s' : S.State} {st st' : State}
  {h : List (Sigma (Reply ε))} {r : Except NapiError String}

theorem register_inv {B Err H : Type} {finish : Except B H} {p : Action ε (Except Err H)}
    {wrap : H → Structure} {fail : Err → NapiError}
    (hp : ∀ x, Solo S.Env i s p h s' (.ok x) → finish = .ok x)
    (hs : Solo S.Env i s (self.register st wrap fail <$> p) h s' (r,st')) :
    (∃ x, finish.toOption.map wrap = some x ∧ r = .ok (self.handleJson st.nextHandle) ∧
        st' = st.next.insert st.nextHandle x) ∨
      (∃ e, r = .error e) ∧ st' = st.next := by
  obtain ⟨y,hy,he⟩ := Solo.map_iff.mp hs
  cases y with
  | error e =>
      obtain ⟨rfl,rfl⟩ := Prod.mk.inj he
      exact .inr ⟨⟨_,rfl⟩,rfl⟩
  | ok x =>
      obtain ⟨rfl,rfl⟩ := Prod.mk.inj he
      refine .inl ⟨wrap x,?_,rfl,rfl⟩
      rw [hp x hy]
      rfl

theorem built_inv {Err H : Type} {p : Action ε (Except Err Unit)} {x y : H}
    (hs : Solo S.Env i s ((fun r => r.map (fun _ => y)) <$> p) h s' (.ok x)) : y = x := by
  obtain ⟨r,-,he⟩ := Solo.map_iff.mp hs
  cases r with
  | error e => simp at he
  | ok u => exact Except.ok.inj he

theorem keep_inv {p : Action ε (Except NapiError String)}
    (hs : Solo S.Env i s (keep st p) h s' (r,st')) : st' = st := by
  obtain ⟨y,-,he⟩ := Solo.map_iff.mp hs
  exact (Prod.mk.inj he).2.symm

theorem execute_mapLifecycle (self : Binding ε) (st : State) (lifecycle : Lifecycle)
    (name schema : String) :
    self.execute st (.mapLifecycle lifecycle name schema) =
      self.register st .map self.operationError <$>
        (((MapBuilder.new st.ns name valueCodec self.serde).withSchema schema).run lifecycle).run := by
  rw [execute,openMap,map_eq_pure_bind]
  congr 1
  funext y
  cases y <;> rfl

theorem execute_logLifecycle (self : Binding ε) (st : State) (lifecycle : Lifecycle)
    (name schema : String) :
    self.execute st (.logLifecycle lifecycle name schema) =
      self.register st .log self.operationError <$>
        (((LogBuilder.new st.ns name valueCodec self.serde).withSchema schema).run lifecycle).run := by
  rw [execute,openLog,map_eq_pure_bind]
  congr 1
  funext y
  cases y <;> rfl

theorem execute_queueLifecycle (self : Binding ε) (st : State) (lifecycle : Lifecycle)
    (name schema : String) :
    self.execute st (.queueLifecycle lifecycle name schema) =
      self.register st .queue self.queueError <$>
        (((QueueBuilder.new st.ns name valueCodec self.serde).withSchema schema).run lifecycle).run := by
  rw [execute,openQueue,map_eq_pure_bind]
  congr 1
  funext y
  cases y <;> rfl

-- A lifecycle call takes its number first and keeps it whether or not it then succeeds.
theorem lifecycle_inv {op : Operation} (hop : op.isLifecycle = true)
    (hs : Solo S.Env i s (self.execute st op) h s' (r,st')) :
    (∃ x, self.target st op = some x ∧ r = .ok (self.handleJson st.nextHandle) ∧
        st' = st.next.insert st.nextHandle x) ∨
      (∃ e, r = .error e) ∧ st' = st.next := by
  cases op with
  | mapLifecycle lifecycle name schema =>
      rw [execute_mapLifecycle] at hs
      refine register_inv (fun x hx => ?_) hs
      rw [MapBuilder.run_eq] at hx
      split at hx
      · simpa using (Solo.done_iff.mp hx).2.2
      · rename_i hfinish
        rw [hfinish,built_inv hx]
  | logLifecycle lifecycle name schema =>
      rw [execute_logLifecycle] at hs
      refine register_inv (fun x hx => ?_) hs
      rw [LogBuilder.run_eq] at hx
      split at hx
      · simpa using (Solo.done_iff.mp hx).2.2
      · rename_i hfinish
        rw [hfinish,built_inv hx]
  | queueLifecycle lifecycle name schema =>
      rw [execute_queueLifecycle] at hs
      refine register_inv (fun x hx => ?_) hs
      rw [QueueBuilder.run_eq] at hx
      split at hx
      · simpa using (Solo.done_iff.mp hx).2.2
      · rename_i hfinish
        rw [hfinish,built_inv hx]
  | _ => simp [Operation.isLifecycle] at hop

theorem data_inv {op : Operation} (hop : op.isLifecycle = false)
    (hs : Solo S.Env i s (self.execute st op) h s' (r,st')) : st' = st := by
  cases op with
  | queueClaim handle leaseMillis =>
      rw [execute] at hs
      split at hs
      · exact (Prod.mk.inj (Solo.done_iff.mp hs).2.2).2
      · exact keep_inv hs
  | mapLifecycle | logLifecycle | queueLifecycle => simp [Operation.isLifecycle] at hop
  | _ => exact keep_inv hs

end Effects

def slot (p : UInt32 × Structure) : Table × UInt32 := (p.2.table,p.1)

structure Session where
  state : State
  live : List (UInt32 × Structure)
  lifecycles : ℕ

-- The number that the client reads in the answer to a lifecycle call.
def returned (self : Binding ε) (text : String) : Option UInt32 :=
  (self.serde.fromText text >>= Json.u32).toOption

theorem returned_handleJson (self : Binding ε) (handle : UInt32) :
    self.returned (self.handleJson handle) = some handle := by
  rw [returned,handleJson,jsonString,self.serde.fromText_toText _ (by simp)]
  simp [Except.toOption,bind,Except.bind]

def granted (self : Binding ε) (st : State) (op : Operation) :
    Except NapiError String → List (UInt32 × Structure)
  | .ok text =>
      match self.target st op, self.returned text with
      | some x, some handle => [(handle,x)]
      | _, _ => []
  | .error _ => []

inductive Move where
  | execute (op : Operation) (succeeded : Bool)
  | release (handle : UInt32) (t : Table)

namespace Session

def start (ns : String) : Session := ⟨State.new ns,[],0⟩

-- The store may change in any way between two calls of the client.
inductive Step (self : Binding ε) (S : ObjectStore ε) : Session → Move → Session → Prop
  | execute {a : Session} {op : Operation} {i : ℕ} {s s' : S.State} {h : List (Sigma (Reply ε))}
      {r : Except NapiError String} {st' : State} :
      Solo S.Env i s (self.execute a.state op) h s' (r,st') →
      Step self S a (.execute op r.isOk)
        ⟨st',a.live ++ self.granted a.state op r,a.lifecycles + op.isLifecycle.toNat⟩
  | release (a : Session) (handle : UInt32) (t : Table) :
      Step self S a (.release handle t) ⟨(a.state.release handle t).1,
        a.live.filter (fun p => slot p ≠ (t,handle)),a.lifecycles⟩

inductive Tour (self : Binding ε) (S : ObjectStore ε) (a : Session) :
    List (Session × Move × Session) → Session → Prop
  | nil : Tour self S a [] a
  | snoc {steps : List (Session × Move × Session)} {b c : Session} {move : Move} :
      Tour self S a steps b → Step self S b move c → Tour self S a (steps ++ [(b,move,c)]) c

-- What an operation or a release does that names a handle in use.
structure Sound (client : Binding ε) (a : Session) : Prop where
  distinct : (a.live.map slot).Nodup
  serves : ∀ p ∈ a.live, a.state.find p.2.table p.1 = some p.2
  acts : ∀ p ∈ a.live, ∀ op : Operation, op.slot = some (slot p) →
    client.execute a.state op = keep a.state (client.perform p.2 op)
  releases : ∀ p ∈ a.live, (a.state.release p.1 p.2.table).2 = true ∧ ∀ t handle,
    (a.state.release p.1 p.2.table).1.find t handle =
      if (t,handle) = slot p then none else a.state.find t handle

-- When a lifecycle call succeeds, its table has no entry under the number the counter gives it.
def Free (self : Binding ε) (a : Session) (move : Move) : Prop :=
  ∀ op x, move = .execute op true → self.target a.state op = some x →
    a.state.find x.table a.state.nextHandle = none

structure Tidy (a : Session) : Prop where
  distinct : (a.live.map slot).Nodup
  serves : ∀ p ∈ a.live, a.state.find p.2.table p.1 = some p.2
  full : ∀ t handle x, a.state.find t handle = some x → x.table = t ∧ (handle,x) ∈ a.live

structure Counted (a : Session) : Prop where
  next : a.state.nextHandle.toNat = (1 + a.lifecycles) % 2 ^ 32
  numbers : ∀ p ∈ a.live, ∃ k < a.lifecycles, p.1.toNat = (1 + k) % 2 ^ 32

variable {self : Binding ε} {S : ObjectStore ε} {a b : Session} {move : Move}

theorem Tidy.sound (ha : a.Tidy) : a.Sound self where
  distinct := ha.distinct
  serves := ha.serves
  acts := fun p hp _ hop => execute_perform (ha.serves p hp) hop
  releases := by
    refine fun p hp => ⟨?_,fun t handle => State.find_release a.state p.1 p.2.table t handle⟩
    rw [State.release_snd,ha.serves p hp]
    rfl

theorem target_of_data {op : Operation} (hop : op.isLifecycle = false) :
    self.target a.state op = none := by
  cases op <;> first | rfl | simp [Operation.isLifecycle] at hop

theorem Step.inv (h : Step self S a move b) :
    (∃ op x, move = .execute op true ∧ self.target a.state op = some x ∧
      b = ⟨a.state.next.insert a.state.nextHandle x,a.live ++ [(a.state.nextHandle,x)],
        a.lifecycles + 1⟩) ∨
    (∃ op, move = .execute op false ∧ b = ⟨a.state.next,a.live,a.lifecycles + 1⟩) ∨
    (∃ op succeeded, move = .execute op succeeded ∧ op.isLifecycle = false ∧ b = a) ∨
    ∃ handle t, move = .release handle t ∧ b = ⟨(a.state.release handle t).1,
      a.live.filter (fun p => slot p ≠ (t,handle)),a.lifecycles⟩ := by
  cases h with
  | @execute op i s s' h r st' hs =>
      cases hop : op.isLifecycle with
      | true =>
          rcases lifecycle_inv hop hs with ⟨x,hx,rfl,rfl⟩ | ⟨⟨e,rfl⟩,rfl⟩
          · exact .inl ⟨op,x,rfl,hx,by simp [granted,hx,returned_handleJson]⟩
          · exact .inr (.inl ⟨op,rfl,by simp [granted]⟩)
      | false =>
          obtain rfl := data_inv hop hs
          refine .inr (.inr (.inl ⟨op,_,rfl,hop,?_⟩))
          cases r <;> simp [granted,target_of_data hop]
  | release handle t => exact .inr (.inr (.inr ⟨handle,t,rfl,rfl⟩))

theorem Tidy.step (ha : a.Tidy) (h : Step self S a move b) (hfree : Free self a move) :
    b.Tidy := by
  rcases h.inv with ⟨op,x,rfl,hx,rfl⟩ | ⟨op,-,rfl⟩ | ⟨op,-,-,-,rfl⟩ | ⟨handle,t,-,rfl⟩
  · have hnone := hfree op x rfl hx
    have hnew : ∀ p ∈ a.live, slot p ≠ (x.table,a.state.nextHandle) := by
      intro p hp he
      obtain ⟨ht,hn⟩ := Prod.mk.inj he
      have := ha.serves p hp
      rw [ht,hn,hnone] at this
      simp at this
    refine ⟨?_,?_,?_⟩
    · rw [List.map_append]
      refine List.nodup_append.mpr ⟨ha.distinct,by simp,?_⟩
      intro y hy z hz
      obtain ⟨p,hp,rfl⟩ := List.mem_map.mp hy
      rw [List.mem_singleton.mp hz]
      exact hnew p hp
    · intro p hp
      rw [State.find_insert,State.find_next]
      rcases List.mem_append.mp hp with hp | hp
      · exact (if_neg (hnew p hp)).trans (ha.serves p hp)
      · rw [List.mem_singleton.mp hp,if_pos rfl]
    · intro t handle y hy
      rw [State.find_insert,State.find_next] at hy
      split at hy
      · rename_i he
        obtain ⟨rfl,rfl⟩ := Prod.mk.inj he
        obtain rfl := Option.some.inj hy
        exact ⟨rfl,by simp⟩
      · obtain ⟨ht,hmem⟩ := ha.full t handle y hy
        exact ⟨ht,List.mem_append_left _ hmem⟩
  · exact ⟨ha.distinct,fun p hp => by rw [State.find_next]; exact ha.serves p hp,
      fun t handle x hx => ha.full t handle x (by rwa [State.find_next] at hx)⟩
  · exact ha
  · refine ⟨(List.filter_sublist.map _).nodup ha.distinct,?_,?_⟩
    · intro p hp
      obtain ⟨hp,hne⟩ := List.mem_filter.mp hp
      rw [State.find_release]
      exact (if_neg (of_decide_eq_true hne)).trans (ha.serves p hp)
    · intro t' other x hx
      rw [State.find_release] at hx
      split at hx
      · simp at hx
      · rename_i hne
        obtain ⟨rfl,hmem⟩ := ha.full t' other x hx
        exact ⟨rfl,List.mem_filter.mpr ⟨hmem,decide_eq_true hne⟩⟩

theorem Step.opened {op : Operation} {x : Structure} (h : Step self S a (.execute op true) b)
    (hx : self.target a.state op = some x) :
    b.live = a.live ++ [(a.state.nextHandle,x)] ∧ b.lifecycles = a.lifecycles + 1 := by
  rcases h.inv with ⟨op',y,he,hy,rfl⟩ | ⟨op',he,-⟩ | ⟨op',succeeded,he,hop,-⟩ | ⟨handle,t,he,-⟩
  · obtain rfl := (Move.execute.inj he).1
    rw [hx] at hy
    rw [Option.some.inj hy]
    exact ⟨rfl,rfl⟩
  · simp at he
  · obtain rfl := (Move.execute.inj he).1
    simp [target_of_data hop] at hx
  · simp at he

theorem Tidy.free (ha : a.Tidy) (h : Step self S a move b) (hb : b.Sound self) :
    Free self a move := by
  rintro op x rfl hx
  cases hf : a.state.find x.table a.state.nextHandle with
  | none => rfl
  | some y =>
      obtain ⟨ht,hmem⟩ := ha.full _ _ y hf
      have hd := hb.distinct
      rw [(h.opened hx).1,List.map_append] at hd
      have hne := (List.nodup_append.mp hd).2.2 _ (List.mem_map.mpr ⟨_,hmem,rfl⟩) _
        (List.mem_singleton.mpr rfl)
      exact absurd (by rw [slot,slot,ht]) hne

theorem Counted.step (ha : a.Counted) (h : Step self S a move b) : b.Counted := by
  have hsucc : (a.state.nextHandle + 1).toNat = (1 + (a.lifecycles + 1)) % 2 ^ 32 := by
    rw [UInt32.toNat_add,ha.next,UInt32.toNat_one]
    omega
  have hkeep : ∀ p ∈ a.live, ∃ k < a.lifecycles + 1, p.1.toNat = (1 + k) % 2 ^ 32 := by
    intro p hp
    obtain ⟨k,hk,he⟩ := ha.numbers p hp
    exact ⟨k,by omega,he⟩
  rcases h.inv with ⟨op,x,-,-,rfl⟩ | ⟨op,-,rfl⟩ | ⟨op,-,-,-,rfl⟩ | ⟨handle,t,-,rfl⟩
  · refine ⟨by rw [State.nextHandle_insert]; exact hsucc,?_⟩
    intro p hp
    rcases List.mem_append.mp hp with hp | hp
    · exact hkeep p hp
    · rw [List.mem_singleton.mp hp]
      exact ⟨a.lifecycles,by simp,ha.next⟩
  · exact ⟨hsucc,hkeep⟩
  · exact ha
  · refine ⟨by rw [State.nextHandle_release]; exact ha.next,?_⟩
    exact fun p hp => ha.numbers p (List.mem_filter.mp hp).1

theorem Counted.free (ha : a.Counted) (hs : a.Tidy) (h : Step self S a move b)
    (hb : b.lifecycles ≤ 2 ^ 32) : Free self a move := by
  rintro op x rfl hx
  cases hf : a.state.find x.table a.state.nextHandle with
  | none => rfl
  | some y =>
      obtain ⟨k,hk,hn⟩ := ha.numbers _ (hs.full _ _ y hf).2
      have hnext := ha.next
      have hsucc := (h.opened hx).2
      simp only at hn
      omega

theorem tidy_start (ns : String) : (start ns).Tidy := by
  refine ⟨.nil,by simp [start],?_⟩
  intro t handle x hx
  cases t <;> simp [start,State.new,State.find] at hx

theorem counted_start (ns : String) : (start ns).Counted :=
  ⟨rfl,by simp [start]⟩

namespace Tour

variable {ns : String} {steps : List (Session × Move × Session)}

theorem tidy (h : Tour self S (start ns) steps b) (hfree : ∀ p ∈ steps, Free self p.1 p.2.1) :
    b.Tidy ∧ ∀ p ∈ steps, p.2.2.Sound self := by
  induction h with
  | nil => exact ⟨tidy_start ns,by simp⟩
  | @snoc steps b c move _ hs ih =>
      obtain ⟨hb,hall⟩ := ih (fun p hp => hfree p (List.mem_append_left _ hp))
      have hc := hb.step hs (hfree (b,move,c) (by simp))
      refine ⟨hc,?_⟩
      intro p hp
      rcases List.mem_append.mp hp with hp | hp
      · exact hall p hp
      · rw [List.mem_singleton.mp hp]
        exact hc.sound

theorem free (h : Tour self S (start ns) steps b) (hsound : ∀ p ∈ steps, p.2.2.Sound self) :
    ∀ p ∈ steps, Free self p.1 p.2.1 := by
  induction h with
  | nil => simp
  | @snoc steps b c move ht hs ih =>
      have hfree := ih (fun p hp => hsound p (List.mem_append_left _ hp))
      intro p hp
      rcases List.mem_append.mp hp with hp | hp
      · exact hfree p hp
      · rw [List.mem_singleton.mp hp]
        exact (ht.tidy hfree).1.free hs (hsound (b,move,c) (by simp))

theorem counted (h : Tour self S (start ns) steps b) : b.Counted := by
  induction h with
  | nil => exact counted_start ns
  | snoc _ hs ih => exact ih.step hs

theorem free_of_few (h : Tour self S (start ns) steps b) (hfew : b.lifecycles ≤ 2 ^ 32) :
    ∀ p ∈ steps, Free self p.1 p.2.1 := by
  induction h with
  | nil => simp
  | @snoc steps b c move ht hs ih =>
      have hmono : b.lifecycles ≤ c.lifecycles := by
        rcases hs.inv with ⟨op,x,-,-,rfl⟩ | ⟨op,-,rfl⟩ | ⟨op,-,-,-,rfl⟩ | ⟨handle,t,-,rfl⟩ <;> simp
      have hfree := ih (by omega)
      intro p hp
      rcases List.mem_append.mp hp with hp | hp
      · exact hfree p hp
      · rw [List.mem_singleton.mp hp]
        exact ht.counted.free (ht.tidy hfree).1 hs hfew

end Tour

theorem handles_never_alias_iff (self : Binding ε) (S : ObjectStore ε) (ns : String)
    (steps : List (Session × Move × Session)) (b : Session) (h : Tour self S (start ns) steps b) :
    ((∀ p ∈ steps, p.2.2.Sound self) ↔ ∀ p ∈ steps, Free self p.1 p.2.1) ∧
      (b.lifecycles ≤ 2 ^ 32 → ∀ p ∈ steps, p.2.2.Sound self) :=
  ⟨⟨h.free,fun hfree => (h.tidy hfree).2⟩,fun hfew => (h.tidy (h.free_of_few hfew)).2⟩

section Wrapped

variable {s : Memory.State} {st : State}

theorem refused_step (a : Session) : ∃ move,
    Step (plain compact) Memory.store a move ⟨a.state.next,a.live,a.lifecycles + 1⟩ := by
  have hs : Solo Memory.store.Env 0 Memory.State.default
      ((plain compact).execute a.state (.mapLifecycle .create "orders" "")) []
      Memory.State.default
      (.error ((plain compact).operationError (.configuration .missingSchema)),a.state.next) := by
    rw [execute_mapLifecycle,MapBuilder.run_eq]
    exact .done
  have hstep := Step.execute hs
  rw [granted,List.append_nil] at hstep
  exact ⟨_,hstep⟩

theorem created_solo {name : String} {map : Map Value}
    (hfinish : ((MapBuilder.new st.ns name valueCodec (plain compact).serde).withSchema
      "v1").finish = .ok map) (hs : s.objects map.location = none) :
    ∃ h s', Solo Memory.store.Env 0 s
      ((plain compact).execute st (.mapLifecycle .create name "v1")) h s'
        (.ok ((plain compact).handleJson st.nextHandle),st.next.insert st.nextHandle (.map map)) := by
  obtain ⟨b,hb⟩ : ∃ b, (map.genesis (ε := Empty)).emptyBytes = .ok b := ⟨_,rfl⟩
  have hcreate : Solo Memory.store.Env 0 s ((map.genesis (ε := Empty)).program .create) _ _ (.ok ()) :=
    memory_establish hs hb
  rw [execute_mapLifecycle,MapBuilder.run_eq,hfinish]
  exact ⟨_,_,Solo.map_iff.mpr ⟨_,Solo.map_iff.mpr ⟨_,hcreate,rfl⟩,rfl⟩⟩

theorem created_step {a : Session} {name : String} {map : Map Value}
    (hfinish : ((MapBuilder.new a.state.ns name valueCodec (plain compact).serde).withSchema
      "v1").finish = .ok map) (hs : s.objects map.location = none) :
    Step (plain compact) Memory.store a (.execute (.mapLifecycle .create name "v1") true)
      ⟨a.state.next.insert a.state.nextHandle (.map map),
        a.live ++ [(a.state.nextHandle,.map map)],a.lifecycles + 1⟩ := by
  obtain ⟨h,s',hsolo⟩ := created_solo hfinish hs
  have hgranted : (plain compact).granted a.state (.mapLifecycle .create name "v1")
      (.ok ((plain compact).handleJson a.state.nextHandle)) = [(a.state.nextHandle,.map map)] := by
    rw [granted,returned_handleJson,target,hfinish]
    rfl
  have hstep := Step.execute hsolo
  rwa [hgranted] at hstep

theorem refused_tour {a b : Session} {steps : List (Session × Move × Session)}
    (h : Tour (plain compact) Memory.store a steps b) (n : ℕ) :
    ∃ steps', Tour (plain compact) Memory.store a steps'
      ⟨{ b.state with nextHandle := b.state.nextHandle + UInt32.ofNat n },b.live,b.lifecycles + n⟩ := by
  induction n with
  | zero => exact ⟨steps,by simpa using h⟩
  | succ n ih =>
      obtain ⟨steps',h'⟩ := ih
      obtain ⟨move,hstep⟩ := refused_step _
      have hnext := h'.snoc hstep
      simp only [State.next,UInt32.add_assoc,Nat.add_assoc] at hnext
      rw [UInt32.ofNat_add]
      exact ⟨_,hnext⟩

def Opens (name : String) (map : Map Value) : Prop :=
  ((MapBuilder.new "shop" name valueCodec (plain compact).serde).withSchema "v1").finish = .ok map

theorem exists_opened : ∃ orders bills : Map Value, Opens "orders" orders ∧ Opens "bills" bills ∧
    orders.location ≠ bills.location :=
  ⟨_,_,rfl,rfl,by decide⟩

-- The second structure takes the place of the first one, which is still in use.
theorem not_sound_of_reused {a : Session} {orders bills : Map Value} {n : ℕ}
    (hnext : a.state.nextHandle = 1) (hne : orders.location ≠ bills.location)
    (hlive : (1,.map orders) ∈ a.live) :
    let b : Session := ⟨a.state.next.insert a.state.nextHandle (.map bills),
      a.live ++ [(a.state.nextHandle,.map bills)],n⟩
    (1,.map orders) ∈ b.live ∧ b.state.find .maps 1 = some (.map bills) ∧
      orders.location ≠ bills.location ∧ ¬ b.Sound (plain compact) := by
  intro b
  have hfound : b.state.find .maps 1 = some (.map bills) := by
    simp only [b]
    rw [State.find_insert,hnext]
    exact if_pos rfl
  refine ⟨List.mem_append_left _ hlive,hfound,hne,fun hsound => hne ?_⟩
  have hserves := hsound.serves _ (List.mem_append_left _ hlive)
  rw [show (Structure.map orders).table = .maps from rfl,hfound] at hserves
  rw [Structure.map.inj (Option.some.inj hserves)]

-- Handle 1 is still in use for the orders, and now reaches the bills.
theorem number_reused : ∃ (steps : List (Session × Move × Session)) (b : Session)
    (orders bills : Map Value), Tour (plain compact) Memory.store (start "shop") steps b ∧
      (1,.map orders) ∈ b.live ∧ b.state.find .maps 1 = some (.map bills) ∧
      orders.location ≠ bills.location ∧ ¬ b.Sound (plain compact) := by
  obtain ⟨orders,bills,horders,hbills,hne⟩ := exists_opened
  obtain ⟨steps,h⟩ := refused_tour
    (Tour.nil.snoc (created_step (a := start "shop") (s := Memory.State.default) horders rfl))
    (2 ^ 32 - 1)
  have hwrap : (1 : UInt32) + 1 + UInt32.ofNat (2 ^ 32 - 1) = 1 := by decide
  exact ⟨_,_,orders,bills,h.snoc (created_step (s := Memory.State.default) hbills rfl),
    not_sound_of_reused hwrap hne (List.mem_singleton_self _)⟩

end Wrapped

theorem first_handle_sound : ∃ (steps : List (Session × Move × Session)) (b : Session)
    (orders bills : Map Value), Tour (plain compact) Memory.store (start "shop") steps b ∧
      b.live = [(1,.map orders),(2,.map bills)] ∧ (∀ p ∈ steps, p.2.2.Sound (plain compact)) ∧
      (plain compact).execute b.state (.mapGet 2 "apples") =
        keep b.state ((plain compact).perform (.map bills) (.mapGet 2 "apples")) := by
  obtain ⟨orders,bills,horders,hbills,-⟩ := exists_opened
  have h := (Tour.nil.snoc
    (created_step (a := start "shop") (s := Memory.State.default) horders rfl)).snoc
      (created_step (s := Memory.State.default) hbills rfl)
  have hsound := (handles_never_alias_iff (plain compact) Memory.store "shop" _ _ h).2
    (show 2 ≤ 2 ^ 32 by decide)
  exact ⟨_,_,orders,bills,h,rfl,hsound,
    (hsound _ (List.mem_append_right _ (List.mem_singleton_self _))).acts (2,.map bills)
      (List.mem_append_right _ (List.mem_singleton_self _)) _ rfl⟩

end Session

end Binding

end Objsds
