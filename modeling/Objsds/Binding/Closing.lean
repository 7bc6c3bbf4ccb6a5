import Objsds.Binding.Codes
import Objsds.Binding.Handles

namespace Objsds

open Foundation Relation

namespace Binding

variable {ε : Type}

inductive ArgumentError where
  | notJson
  | lease
deriving DecidableEq

def ArgumentError.code : ArgumentError → Option String
  | .notJson => none
  | .lease => some "ERR_OBJSDS_INVALID_CONFIGURATION"

-- An argument that the wrapper checks before it looks at its handle stands as what the check
-- makes of it.
inductive Method where
  | mapGet (key : String)
  | mapEntries
  | mapInsert (key : String) (valueJson : Except ArgumentError String)
  | mapInsertIfAbsent (key : String) (valueJson : Except ArgumentError String)
  | mapRemove (key : String)
  | logAppend (valueJson : Except ArgumentError String)
  | logGet (id : String)
  | logRecords
  | logRecordsAfter (id : String)
  | queuePublish (valueJson : Except ArgumentError String)
  | queueClaim (leaseMillis : Except ArgumentError Int64)
  | queueAck (id token : String)
  | queueLen
  | queueIsEmpty

namespace Method

def table : Method → Table
  | .mapGet _ | .mapEntries | .mapInsert _ _ | .mapInsertIfAbsent _ _ | .mapRemove _ => .maps
  | .logAppend _ | .logGet _ | .logRecords | .logRecordsAfter _ => .logs
  | .queuePublish _ | .queueClaim _ | .queueAck _ _ | .queueLen | .queueIsEmpty => .queues

def operation (handle : UInt32) : Method → Except ArgumentError Operation
  | .mapGet key => .ok (.mapGet handle key)
  | .mapEntries => .ok (.mapEntries handle)
  | .mapInsert key valueJson => valueJson.map (.mapInsert handle key)
  | .mapInsertIfAbsent key valueJson => valueJson.map (.mapInsertIfAbsent handle key)
  | .mapRemove key => .ok (.mapRemove handle key)
  | .logAppend valueJson => valueJson.map (.logAppend handle)
  | .logGet id => .ok (.logGet handle id)
  | .logRecords => .ok (.logRecords handle)
  | .logRecordsAfter id => .ok (.logRecordsAfter handle id)
  | .queuePublish valueJson => valueJson.map (.queuePublish handle)
  | .queueClaim leaseMillis => leaseMillis.map (.queueClaim handle)
  | .queueAck id token => .ok (.queueAck handle id token)
  | .queueLen => .ok (.queueLen handle)
  | .queueIsEmpty => .ok (.queueIsEmpty handle)

end Method

inductive Outcome where
  | argument (error : ArgumentError)
  | closed
  | aborted
  | native (result : Except NapiError String)

def Outcome.code (self : Binding ε) : Outcome → Option String
  | .argument error => error.code
  | .closed => some invalidHandleCode
  | .aborted => none
  | .native (.ok _) => none
  | .native (.error error) => self.errorCode error

inductive Work (ε : Type) where
  | never
  | queued (op : Operation)
  | running (rest : Action ε (Except NapiError String))
  | ended

-- `issuedOpen` and `startedOpen` record whether the wrapper was open when the call was issued and
-- when the pool started its task.
structure Issued (ε : Type) where
  method : Method
  issuedOpen : Bool
  startedOpen : Option Bool
  history : List (Sigma (Reply ε))
  work : Work ε
  promise : Option Outcome

def issue (closed aborted : Bool) (handle : UInt32) (method : Method) : Issued ε :=
  match method.operation handle with
  | .error error => ⟨method,!closed,none,[],.never,some (.argument error)⟩
  | .ok op =>
      if closed then ⟨method,!closed,none,[],.never,some .closed⟩
      else if aborted then ⟨method,!closed,none,[],.never,some .aborted⟩
      else ⟨method,!closed,none,[],.queued op,none⟩

structure Host (S : ObjectStore ε) where
  state : State
  store : S.State
  closed : Bool
  calls : ℕ → Option (Issued ε)

namespace Host

variable {S : ObjectStore ε}

def put (a : Host S) (i : ℕ) (call : Issued ε) : Host S :=
  { a with calls := Function.update a.calls i (some call) }

def close (a : Host S) (t : Table) (handle : UInt32) : Host S :=
  if a.closed then a else { a with closed := true, state := (a.state.release handle t).1 }

-- One wrapper with its calls. Whatever else goes on leaves the wrapper's entry alone.
inductive Step (self : Binding ε) (t : Table) (handle : UInt32) : Host S → Host S → Prop
  | issue (a : Host S) (i : ℕ) (method : Method) (aborted : Bool) (kind : method.table = t)
      (new : a.calls i = none) : Step self t handle a (a.put i (issue a.closed aborted handle method))
  | start {a : Host S} {i : ℕ} {call : Issued ε} {op : Operation} (issued : a.calls i = some call)
      (queued : call.work = .queued op) :
      Step self t handle a (a.put i { call with
        startedOpen := some !a.closed, work := .running (Prod.fst <$> self.execute a.state op) })
  | request {a : Host S} {i : ℕ} {call : Issued ε} {e : Effect}
      {next : Reply ε e → Action ε (Except NapiError String)} {r : Reply ε e} {s : S.State}
      (issued : a.calls i = some call) (running : call.work = .running (.perform e next))
      (answer : S.Env a.store ⟨i,e,r⟩ s) :
      Step self t handle a (Host.put { a with store := s } i { call with
        work := .running (next r), history := call.history ++ [⟨e,r⟩] })
  | settle {a : Host S} {i : ℕ} {call : Issued ε} {result : Except NapiError String}
      (issued : a.calls i = some call) (running : call.work = .running (.done result)) :
      Step self t handle a (a.put i { call with
        work := .ended, promise := some (call.promise.getD (.native result)) })
  | cancel {a : Host S} {i : ℕ} {call : Issued ε} {op : Operation} (issued : a.calls i = some call)
      (queued : call.work = .queued op) :
      Step self t handle a (a.put i { call with work := .never, promise := some .aborted })
  | abandon {a : Host S} {i : ℕ} {call : Issued ε} {rest : Action ε (Except NapiError String)}
      (issued : a.calls i = some call) (running : call.work = .running rest) :
      Step self t handle a (a.put i { call with promise := some (call.promise.getD .aborted) })
  | close (a : Host S) : Step self t handle a (a.close t handle)
  | elsewhere (a : Host S) (st : State) (s : S.State)
      (apart : st.find t handle = a.state.find t handle) :
      Step self t handle a { a with state := st, store := s }

end Host

theorem Method.operation_slot {method : Method} {handle : UInt32} {op : Operation}
    (h : method.operation handle = .ok op) : op.slot = some (method.table,handle) := by
  cases method with
  | mapInsert key valueJson | mapInsertIfAbsent key valueJson | logAppend valueJson
  | queuePublish valueJson | queueClaim valueJson =>
      obtain ⟨_,-,rfl⟩ := except_map_eq_ok.mp h
      rfl
  | _ =>
      obtain rfl := Except.ok.inj h
      rfl

section Lookup

variable {self : Binding ε} {st : State} {handle : UInt32} {h : List (Sigma (Reply ε))}
  {error : NapiError}

theorem answer_error {Err α : Type} {text : α → String} {fail : Err → NapiError}
    {action : Action ε (Except Err α)}
    (hf : (answer text fail action).Follows h (.done (.error error))) : ∃ e, error = fail e := by
  obtain ⟨r,-,hr⟩ := Program.follows_map_done.mp hf
  obtain ⟨e,-,he⟩ := except_mapError_eq_error.mp hr
  exact ⟨e,he.symm⟩

theorem keep_fst (task : Action ε (Except NapiError String)) :
    Prod.fst <$> keep st task = task := by
  simp [keep]

theorem onMap_foreign {op : Except NapiError (Map.Op Value)} (hm : st.maps handle ≠ none)
    (hop : ∀ e, op = .error e → self.Foreign e)
    (hf : (self.onMap st handle op).Follows h (.done (.error error))) : self.Foreign error := by
  unfold onMap at hf
  split at hf
  · exact absurd ‹_› hm
  · obtain rfl := Except.error.inj (Program.done.inj (Program.follows_done.mp hf).2)
    exact hop _ rfl
  · obtain ⟨e,rfl⟩ := answer_error hf
    exact self.operationError_foreign e

theorem onLog_foreign {op : Except NapiError (Log.Op Value)} (hm : st.logs handle ≠ none)
    (hop : ∀ e, op = .error e → self.Foreign e)
    (hf : (self.onLog st handle op).Follows h (.done (.error error))) : self.Foreign error := by
  unfold onLog at hf
  split at hf
  · exact absurd ‹_› hm
  · obtain rfl := Except.error.inj (Program.done.inj (Program.follows_done.mp hf).2)
    exact hop _ rfl
  · obtain ⟨e,rfl⟩ := answer_error hf
    exact self.operationError_foreign e

theorem onQueue_foreign {op : Except NapiError (Queue.Op Value)} (hm : st.queues handle ≠ none)
    (hop : ∀ e, op = .error e → self.Foreign e)
    (hf : (self.onQueue st handle op).Follows h (.done (.error error))) : self.Foreign error := by
  unfold onQueue at hf
  split at hf
  · exact absurd ‹_› hm
  · obtain rfl := Except.error.inj (Program.done.inj (Program.follows_done.mp hf).2)
    exact hop _ rfl
  · obtain ⟨e,rfl⟩ := answer_error hf
    exact self.queueError_foreign e

theorem execute_foreign {op : Operation} {t : Table} (hslot : op.slot = some (t,handle))
    (hfind : st.find t handle ≠ none)
    (hf : (Prod.fst <$> self.execute st op).Follows h (.done (.error error))) :
    self.Foreign error := by
  have hmaps : t = .maps → st.maps handle ≠ none := by
    rintro rfl hnone
    simp [State.find,hnone] at hfind
  have hlogs : t = .logs → st.logs handle ≠ none := by
    rintro rfl hnone
    simp [State.find,hnone] at hfind
  have hqueues : t = .queues → st.queues handle ≠ none := by
    rintro rfl hnone
    simp [State.find,hnone] at hfind
  cases op with
  | mapLifecycle | logLifecycle | queueLifecycle => simp [Operation.slot] at hslot
  | mapGet | mapEntries | mapRemove =>
      obtain ⟨rfl,rfl⟩ := Prod.mk.inj (Option.some.inj hslot)
      rw [execute,keep_fst] at hf
      exact onMap_foreign (hmaps rfl) (by simp) hf
  | mapInsert | mapInsertIfAbsent =>
      obtain ⟨rfl,rfl⟩ := Prod.mk.inj (Option.some.inj hslot)
      rw [execute,keep_fst] at hf
      exact onMap_foreign (hmaps rfl)
        (fun e he => parseValue_foreign (except_map_eq_error.mp he)) hf
  | logRecords =>
      obtain ⟨rfl,rfl⟩ := Prod.mk.inj (Option.some.inj hslot)
      rw [execute,keep_fst] at hf
      exact onLog_foreign (hlogs rfl) (by simp) hf
  | logAppend =>
      obtain ⟨rfl,rfl⟩ := Prod.mk.inj (Option.some.inj hslot)
      rw [execute,keep_fst] at hf
      exact onLog_foreign (hlogs rfl)
        (fun e he => parseValue_foreign (except_map_eq_error.mp he)) hf
  | logGet | logRecordsAfter =>
      obtain ⟨rfl,rfl⟩ := Prod.mk.inj (Option.some.inj hslot)
      rw [execute,keep_fst] at hf
      exact onLog_foreign (hlogs rfl)
        (fun e he => parseLogId_foreign (except_map_eq_error.mp he)) hf
  | queueLen | queueIsEmpty =>
      obtain ⟨rfl,rfl⟩ := Prod.mk.inj (Option.some.inj hslot)
      rw [execute,keep_fst] at hf
      exact onQueue_foreign (hqueues rfl) (by simp) hf
  | queuePublish =>
      obtain ⟨rfl,rfl⟩ := Prod.mk.inj (Option.some.inj hslot)
      rw [execute,keep_fst] at hf
      exact onQueue_foreign (hqueues rfl)
        (fun e he => parseValue_foreign (except_map_eq_error.mp he)) hf
  | queueClaim handle leaseMillis =>
      obtain ⟨rfl,rfl⟩ := Prod.mk.inj (Option.some.inj hslot)
      rw [execute] at hf
      split at hf
      · rename_i e he
        obtain rfl := Except.error.inj (Program.done.inj (Program.follows_done.mp hf).2)
        exact leaseDuration_foreign he
      · rw [keep_fst] at hf
        exact onQueue_foreign (hqueues rfl) (by simp) hf
  | queueAck handle id token =>
      obtain ⟨rfl,rfl⟩ := Prod.mk.inj (Option.some.inj hslot)
      rw [execute,keep_fst] at hf
      refine onQueue_foreign (hqueues rfl) (fun e he => ?_) hf
      rcases except_bind_eq_error.mp he with he | ⟨_,-,he⟩
      · exact parseMessageId_foreign he
      · rcases except_bind_eq_error.mp he with he | ⟨_,-,he⟩
        · exact parseLeaseToken_foreign he
        · simp at he

end Lookup

def Method.refusal (handle : UInt32) (method : Method) : Outcome :=
  match method.operation handle with
  | .error error => .argument error
  | .ok _ => .closed

structure Issued.Sound (node : Binding ε) (t : Table) (handle : UInt32) (call : Issued ε) :
    Prop where
  late : call.issuedOpen = false →
    call.work = .never ∧ call.history = [] ∧ call.promise = some (call.method.refusal handle)
  early : call.issuedOpen = true → call.startedOpen ≠ some false →
    ∀ outcome, call.promise = some outcome → outcome.code node ≠ some invalidHandleCode
  queued : ∀ op, call.work = .queued op →
    op.slot = some (t,handle) ∧ call.history = [] ∧ call.promise = none
  running : ∀ rest, call.work = .running rest → call.startedOpen ≠ none ∧
    (call.startedOpen = some true → ∃ st op, op.slot = some (t,handle) ∧
      st.find t handle ≠ none ∧ (Prod.fst <$> node.execute st op).Follows call.history rest)

structure Host.Sound (node : Binding ε) (t : Table) (handle : UInt32) {S : ObjectStore ε}
    (a : Host S) : Prop where
  entry : a.closed = false → a.state.find t handle ≠ none
  calls : ∀ i call, a.calls i = some call → call.Sound node t handle

section Runs

variable {self : Binding ε} {t : Table} {handle : UInt32} {S : ObjectStore ε} {a b : Host S}
  {call : Issued ε}

theorem issue_sound {method : Method} {closed aborted : Bool} (hkind : method.table = t) :
    (issue closed aborted handle method : Issued ε).Sound self t handle := by
  unfold issue
  cases hop : method.operation handle with
  | error error =>
      refine ⟨fun _ => ⟨rfl,rfl,by simp [Method.refusal,hop]⟩,?_,by simp,by simp⟩
      intro _ _ outcome ho
      obtain rfl := Option.some.inj ho
      cases error <;> simp [Outcome.code,ArgumentError.code,invalidHandleCode]
  | ok op =>
      cases closed with
      | true => exact ⟨fun _ => ⟨rfl,rfl,by simp [Method.refusal,hop]⟩,by simp,by simp,by simp⟩
      | false =>
          cases aborted with
          | true =>
              refine ⟨by simp,?_,by simp,by simp⟩
              intro _ _ outcome ho
              obtain rfl := Option.some.inj ho
              simp [Outcome.code]
          | false =>
              refine ⟨by simp,by simp,?_,by simp⟩
              intro op' h
              obtain rfl := Work.queued.inj h
              exact ⟨hkind ▸ Method.operation_slot hop,rfl,rfl⟩

theorem Issued.Sound.issuedOpen (h : call.Sound self t handle) (hw : call.work ≠ .never) :
    call.issuedOpen = true := by
  cases ho : call.issuedOpen with
  | true => rfl
  | false => exact absurd (h.late ho).1 hw

theorem start_sound {op : Operation} {st : State} {isOpen : Bool} (h : call.Sound self t handle)
    (hq : call.work = .queued op) (hentry : isOpen = true → st.find t handle ≠ none) :
    Issued.Sound self t handle { call with
      startedOpen := some isOpen, work := .running (Prod.fst <$> self.execute st op) } := by
  obtain ⟨hslot,hhistory,hpromise⟩ := h.queued op hq
  have hopen := h.issuedOpen (by simp [hq])
  refine ⟨by simp [hopen],by simp [hpromise],by simp,?_⟩
  intro rest hrest
  obtain rfl := Work.running.inj hrest
  refine ⟨by simp,fun hstarted => ?_⟩
  exact ⟨st,op,hslot,hentry (Option.some.inj hstarted),by simp [hhistory]⟩

theorem request_sound {e : Effect} {next : Reply ε e → Action ε (Except NapiError String)}
    {r : Reply ε e} (h : call.Sound self t handle) (hr : call.work = .running (.perform e next)) :
    Issued.Sound self t handle { call with
      work := .running (next r), history := call.history ++ [⟨e,r⟩] } := by
  have hopen := h.issuedOpen (by simp [hr])
  refine ⟨by simp [hopen],h.early,by simp,?_⟩
  intro rest hrest
  obtain rfl := Work.running.inj hrest
  obtain ⟨hstarted,htrue⟩ := h.running _ hr
  refine ⟨hstarted,fun hs => ?_⟩
  obtain ⟨st,op,hslot,hfind,hf⟩ := htrue hs
  exact ⟨st,op,hslot,hfind,Program.follows_snoc.mpr ⟨next,hf,rfl⟩⟩

theorem settle_sound {result : Except NapiError String} (h : call.Sound self t handle)
    (hr : call.work = .running (.done result)) :
    Issued.Sound self t handle { call with
      work := .ended, promise := some (call.promise.getD (.native result)) } := by
  have hopen := h.issuedOpen (by simp [hr])
  obtain ⟨hstarted,hrun⟩ := h.running _ hr
  refine ⟨by simp [hopen],?_,by simp,by simp⟩
  intro _ hs outcome ho
  obtain rfl := Option.some.inj ho
  cases hp : call.promise with
  | some outcome => simpa using h.early hopen hs outcome hp
  | none =>
      cases result with
      | ok text => simp [Outcome.code]
      | error error =>
          have htrue : call.startedOpen = some true := by
            match hso : call.startedOpen,hstarted,hs with
            | some true,_,_ => rfl
            | some false,_,hs => exact absurd rfl hs
          obtain ⟨st,op,hslot,hfind,hf⟩ := hrun htrue
          exact execute_foreign hslot hfind hf

theorem aborted_sound (work : Work ε) (h : call.Sound self t handle)
    (hopen : call.issuedOpen = true) (hq : ∀ op, work ≠ .queued op)
    (hr : ∀ rest, work = .running rest → call.work = .running rest) :
    Issued.Sound self t handle { call with
      work := work, promise := some (call.promise.getD .aborted) } := by
  refine ⟨by simp [hopen],?_,fun op ho => absurd ho (hq op),fun rest hw => h.running rest (hr rest hw)⟩
  intro _ hs outcome ho
  obtain rfl := Option.some.inj ho
  cases hp : call.promise with
  | some outcome => simpa using h.early hopen hs outcome hp
  | none => simp [Outcome.code]

theorem Host.put_calls (a : Host S) (i : ℕ) (call : Issued ε) :
    (a.put i call).calls i = some call :=
  Function.update_self ..

theorem Host.Sound.put (h : a.Sound self t handle) {i : ℕ} (hcall : call.Sound self t handle) :
    (a.put i call).Sound self t handle := by
  refine ⟨h.entry,fun j other hj => ?_⟩
  by_cases hji : j = i
  · subst hji
    have hput : some call = some other := by simpa [Host.put] using hj
    exact Option.some.inj hput ▸ hcall
  · exact h.calls j other (by simpa [Host.put,hji] using hj)

theorem Host.Sound.step (h : a.Sound self t handle) (hs : Host.Step self t handle a b) :
    b.Sound self t handle := by
  cases hs with
  | issue i method aborted kind new => exact h.put (issue_sound kind)
  | start issued queued =>
      refine h.put (start_sound (h.calls _ _ issued) queued (fun hopen => h.entry ?_))
      simpa using hopen
  | @request i call e next r s issued running answer =>
      have ha : Host.Sound self t handle { a with store := s } := ⟨h.entry,h.calls⟩
      exact ha.put (request_sound (h.calls _ _ issued) running)
  | settle issued running => exact h.put (settle_sound (h.calls _ _ issued) running)
  | @cancel i call op issued queued =>
      have hcall := h.calls _ _ issued
      have hsound := aborted_sound .never hcall (hcall.issuedOpen (by simp [queued]))
        (by simp) (by simp)
      rw [(hcall.queued op queued).2.2] at hsound
      exact h.put hsound
  | @abandon i call rest issued running =>
      have hcall := h.calls _ _ issued
      exact h.put (aborted_sound _ hcall (hcall.issuedOpen (by simp [running]))
        (by simp [running]) (fun _ hw => hw))
  | close =>
      unfold Host.close
      split
      · exact h
      · exact ⟨by simp,h.calls⟩
  | elsewhere st s apart => exact ⟨fun hopen => apart ▸ h.entry hopen,h.calls⟩

structure Host.Fresh (t : Table) (handle : UInt32) (a : Host S) : Prop where
  isOpen : a.closed = false
  entry : a.state.find t handle ≠ none
  calls : ∀ i, a.calls i = none

theorem handle_checks_agree (self : Binding ε) (t : Table) (handle : UInt32) {a b : Host S}
    (hfresh : a.Fresh t handle) (hrun : ReflTransGen (Host.Step self t handle) a b) {i : ℕ}
    {call : Issued ε} (hcall : b.calls i = some call) :
    (call.issuedOpen = true → call.startedOpen ≠ some false →
      ∀ outcome, call.promise = some outcome → outcome.code self ≠ some invalidHandleCode) ∧
    (call.issuedOpen = false → call.history = [] ∧ call.work = .never ∧
      ∃ outcome, call.promise = some outcome ∧
        ((∃ op, call.method.operation handle = .ok op) →
          outcome.code self = some invalidHandleCode) ∧
        ∀ error, call.method.operation handle = .error error → outcome = .argument error) := by
  have hstart : a.Sound self t handle :=
    ⟨fun _ => hfresh.entry,fun i call h => by simp [hfresh.calls i] at h⟩
  have hsound : b.Sound self t handle := by
    clear hcall
    induction hrun with
    | refl => exact hstart
    | tail _ hs ih => exact ih.step hs
  obtain hc := hsound.calls i call hcall
  refine ⟨hc.early,fun hlate => ?_⟩
  obtain ⟨hnever,hhistory,hpromise⟩ := hc.late hlate
  refine ⟨hhistory,hnever,_,hpromise,?_,?_⟩
  · rintro ⟨op,hop⟩
    simp [Method.refusal,hop,Outcome.code]
  · intro error herror
    simp [Method.refusal,herror]

end Runs

section Counters

def counters : Map Value := ⟨⟨"shop/maps/counts.json",by decide⟩,"v1",valueCodec,compact⟩

def counting : Host Memory.store :=
  ⟨(State.new "shop").insert 1 (.map counters),Memory.State.default,false,fun _ => none⟩

theorem counting_fresh : counting.Fresh .maps 1 :=
  ⟨rfl,by simp [counting,State.find_insert,Structure.table],fun _ => rfl⟩

theorem issue_after_close_invalid :
    ∃ b call, ReflTransGen (Host.Step (plain compact) .maps 1) counting b ∧
      b.calls 0 = some call ∧ call.issuedOpen = false ∧ call.history = [] ∧
      ∃ outcome, call.promise = some outcome ∧
        outcome.code (plain compact) = some invalidHandleCode := by
  have hclose : ReflTransGen (Host.Step (plain compact) .maps 1) counting _ := .single (.close _)
  have hrun := hclose.tail (Host.Step.issue _ 0 .mapEntries false rfl rfl)
  obtain ⟨-,hlate⟩ := handle_checks_agree (plain compact) .maps 1 counting_fresh hrun
    (Host.put_calls ..)
  obtain ⟨hhistory,-,outcome,hpromise,hcode,-⟩ := hlate rfl
  exact ⟨_,_,hrun,Host.put_calls ..,rfl,hhistory,outcome,hpromise,hcode ⟨_,rfl⟩⟩

-- The pool starts the task of a call after the wrapper is closed; and a value that is not JSON is
-- refused before the closed handle is noticed.
theorem handle_checks_differ :
    (∃ b call, ReflTransGen (Host.Step (plain compact) .maps 1) counting b ∧
      b.calls 0 = some call ∧ call.issuedOpen = true ∧
      ∃ outcome, call.promise = some outcome ∧
        outcome.code (plain compact) = some invalidHandleCode) ∧
    ∃ b call, ReflTransGen (Host.Step (plain compact) .maps 1) counting b ∧
      b.calls 0 = some call ∧ call.issuedOpen = false ∧
      ∃ outcome, call.promise = some outcome ∧
        outcome.code (plain compact) ≠ some invalidHandleCode := by
  constructor
  · have hissue : ReflTransGen (Host.Step (plain compact) .maps 1) counting _ :=
      .single (.issue _ 0 .mapEntries false rfl rfl)
    have hclose := hissue.tail (Host.Step.close _)
    have hstart := hclose.tail (Host.Step.start (Host.put_calls ..) rfl)
    have hsettle := hstart.tail (Host.Step.settle (Host.put_calls ..) rfl)
    exact ⟨_,_,hsettle,Host.put_calls ..,rfl,_,rfl,(plain compact).errorCode_invalidHandle⟩
  · have hclose : ReflTransGen (Host.Step (plain compact) .maps 1) counting _ := .single (.close _)
    have hrun := hclose.tail (Host.Step.issue _ 0 (.mapInsert "a" (.error .notJson)) false rfl rfl)
    exact ⟨_,_,hrun,Host.put_calls ..,rfl,_,rfl,by simp [Outcome.code,ArgumentError.code]⟩

end Counters

end Binding

end Objsds
