import Objsds.Core.LogHistory
import Objsds.Core.MapInDoubt
import Objsds.Filesystem.Calls
import Objsds.Queue.Fencing

namespace Objsds

open Foundation

section Marks

variable {ε : Type} {E : Type} {R : E → Type} {tr : Trace R}
  {marks : List (Option (Event (Reply ε)))}

theorem issued_sublist {drawing : Event R → Option Uuid}
    (h : List.Forall₂ (fun ev mark => ∀ a ∈ mark, ∀ id, identifier a.answer = some id →
      drawing ev = some id) tr marks) :
    (issued marks.reduceOption).Sublist (tr.filterMap drawing) := by
  induction h with
  | nil => exact List.Sublist.refl _
  | @cons ev mark tr marks hshow _ ih =>
      have hrest : (issued marks.reduceOption).Sublist ((ev :: tr).filterMap drawing) := by
        rw [← List.singleton_append,List.filterMap_append]
        exact ih.trans (List.sublist_append_right ..)
      cases mark with
      | none => exact hrest
      | some a =>
          cases hid : identifier a.answer with
          | none =>
              have hsame : issued (some a :: marks).reduceOption = issued marks.reduceOption := by
                simp [issued,identifiers,hid]
              rwa [hsame]
          | some id =>
              have hissued : issued (some a :: marks).reduceOption =
                  id :: issued marks.reduceOption := by
                simp [issued,identifiers,hid]
              rw [hissued,List.filterMap_cons_some (hshow a rfl id hid)]
              exact ih.cons_cons id

theorem marks_of_nil (h : List.Forall₂ (fun ev mark => ∀ a ∈ mark, a.call = ev.call) tr marks)
    {i : ℕ} (hi : Trace.of i tr = []) : Trace.of i marks.reduceOption = [] := by
  induction h with
  | nil => rfl
  | @cons ev mark tr marks hown _ ih =>
      rw [← List.singleton_append,Trace.of_append] at hi
      obtain ⟨hev,htr⟩ := List.append_eq_nil_iff.mp hi
      cases mark with
      | none => exact ih htr
      | some a =>
          have hne : a.call ≠ i := by
            rintro rfl
            simp [Trace.of,hown a rfl] at hev
          rw [List.reduceOption_cons_of_some,← List.singleton_append,Trace.of_append,ih htr]
          simp [Trace.of,hne]

end Marks

structure Mirrored {ε E W α : Type} {R : E → Type} (S : ObjectStore ε) (l : Location)
    (A : ℕ → Action ε α) (tr : Trace R) (c : Config W R α) (s : S.State) (T : Trace (Reply ε))
    (m : Config S.State (Reply ε) α) : Prop where
  run : Run S.Env ⟨s,A⟩ T m
  coherent : Coherent (held (S.objects s l) l T)
  marked : ∃ marks, List.Forall₂ (fun ev mark => ∀ a ∈ mark, a.call = ev.call) tr marks ∧
    T = marks.reduceOption
  done : ∀ i a, c.calls i = .done a → m.calls i = .done a

-- A call that was cut short or failed may or may not have taken effect.
def Doubtful {ε E W α Err : Type} {R : E → Type} (storeError : ε → Err) (tr : Trace R)
    (c : Config W R (Except Err α)) (i : ℕ) : Prop :=
  Trace.of i tr ≠ [] ∧ ((∃ e next, c.calls i = .perform e next) ∨
    ∃ source, c.calls i = .done (.error (storeError source)))

section Mirror

variable {ε E W D Err α : Type} {R : E → Type} {S : ObjectStore ε} {l : Location} {tr : Trace R}
  {s : S.State}

theorem Mirrored.started {A : ℕ → Action ε α} {c : Config W R α} {T : Trace (Reply ε)}
    {m : Config S.State (Reply ε) α} (h : Mirrored S l A tr c s T m) {i : ℕ}
    (hi : Trace.of i T ≠ []) : Trace.of i tr ≠ [] := by
  obtain ⟨marks,hmarks,rfl⟩ := h.marked
  exact fun hnil => hi (marks_of_nil hmarks hnil)

theorem Mirrored.committed {m : Medium D Err ε} {procs : ℕ → Procedure D Err α}
    {c : Config W R (Except Err α)} {T₁ T₂ : Trace (Reply ε)} {ev : Event (Reply ε)}
    {m' : Config S.State (Reply ε) (Except Err α)} {o' : Object}
    (h : Mirrored S m.location (fun i => (procs i).program m) tr c s (T₁ ++ ev :: T₂) m')
    (hw : stores m.location ev = some o') :
    ∃ o d d' reply v, m.decode o.bytes = .ok d ∧
      (procs ev.call).Holds m (Trace.of ev.call T₁) o d (.commit d' reply) ∧
      (c.calls ev.call = .done (.ok (reply v)) ∨ Doubtful m.storeError tr c ev.call) := by
  obtain ⟨-,o,d,d',reply,r,-,-,-,hd,hc,hv,hcall⟩ := Run.committed_at h.run h.coherent hw
  obtain ⟨o₁,hh,-⟩ := hc.holds
  have hstarted : Trace.of ev.call tr ≠ [] := h.started (by simp [Trace.of])
  refine ⟨o₁,d,d',reply,o'.version,hh.decoded,hh,?_⟩
  cases hcalls : c.calls ev.call with
  | perform e next => exact .inr ⟨hstarted,.inl ⟨e,next,hcalls⟩⟩
  | done a =>
      obtain rfl := Program.done.inj ((h.done _ a hcalls).symm.trans hcall)
      cases r with
      | replaced w =>
          rw [← Option.some.inj hv]
          exact .inl rfl
      | uncertain source w => exact .inr ⟨hstarted,.inr ⟨source,hcalls⟩⟩
      | conflict | failed => simp [ReplaceReply.written] at hv

theorem plan_oblivious (m : Medium D Err ε) (x : Version) (plan : Plan D Err α) :
    Oblivious (plan.program m x) := by
  induction plan with
  | respond result => trivial
  | generate next ih => exact ih
  | commit document reply =>
      rw [Plan.program]
      cases m.encode document with
      | error e => trivial
      | ok b => exact ⟨fun _ _ => rfl,fun _ => trivial⟩

theorem procedure_oblivious (m : Medium D Err ε) (p : Procedure D Err α) :
    Oblivious (p.program m) := by
  induction p with
  | respond result => trivial
  | clock next ih => exact ih
  | transact plan =>
      refine ⟨fun _ _ => rfl,fun r => ?_⟩
      simp only [Medium.resume]
      cases m.snapshot r with
      | error e => trivial
      | ok found => exact plan_oblivious m found.1 (plan found.2)

end Mirror

section Confirmed

variable {ε D Err α : Type} {S : ObjectStore ε} {m : Medium D Err ε}
  {procs : ℕ → Procedure D Err α} {s : S.State} {T₁ T₂ : Trace (Reply ε)}
  {m₁ m' : Config S.State (Reply ε) (Except Err α)} {i : ℕ} {a : α}

inductive Confirms (l : Location) : Event (Reply ε) → Prop
  | created (i : ℕ) (b : Bytes) (v : Version) : Confirms l ⟨i,.store (.create l b),.created v⟩
  | replaced (i : ℕ) (x : Version) (b : Bytes) (v : Version) :
      Confirms l ⟨i,.store (.replace l x b),.replaced v⟩

theorem settled_before (hr : Run S.Env (launch S m procs s) (T₁ ++ T₂) m')
    (h₁ : Run S.Env (launch S m procs s) T₁ m₁) (hnone : ∀ ev ∈ T₂, ¬ Confirms m.location ev)
    (hreject : ∀ nows, (procs i).after nows ≠ some (.respond (.ok a)))
    (hrespond : ∀ h o d, ¬ (procs i).Holds m h o d (.respond (.ok a)))
    (hd : m'.calls i = .done (.ok a)) : m₁.calls i = .done (.ok a) := by
  have hf := Run.finished hr hd
  generalize hres : (Except.ok a : Except Err α) = result at hf
  cases hf with
  | responded result hafter =>
      subst hres
      exact absurd hafter (hreject _)
  | missed | unencodable => simp at hres
  | answered o d result hh =>
      subst hres
      exact absurd hh (hrespond _ o d)
  | settled h₀ o d d' reply b r hh hb hw =>
      cases r with
      | conflict observed => simp [Medium.settle,ReplaceReply.result] at hres
      | failed source => simp [Medium.settle,ReplaceReply.result] at hres
      | uncertain source v => simp [Medium.settle,ReplaceReply.result] at hres
      | replaced v =>
          have hlate : Trace.of i T₂ = [] := by
            rw [Trace.of_append] at hw
            rcases List.eq_nil_or_concat (Trace.of i T₂) with hnil | ⟨init,x,hx⟩
            · exact hnil
            · rw [List.concat_eq_append] at hx
              rw [hx,← List.append_assoc] at hw
              obtain rfl := List.singleton_inj.mp (List.append_inj' hw rfl).2
              obtain ⟨ev,hev,-,ha⟩ : ∃ ev ∈ T₂, ev.call = i ∧ ev.answer =
                  ⟨.store (.replace m.location o.version b),.replaced v⟩ :=
                Trace.mem_of.mp (by simp [hx])
              obtain ⟨j,e,r⟩ := ev
              obtain ⟨rfl,hr⟩ := Sigma.mk.inj ha
              obtain rfl := eq_of_heq hr
              exact absurd (.replaced j o.version b v) (hnone _ hev)
          have hfollows := hr.follows i
          rw [Trace.of_append,hlate,List.append_nil] at hfollows
          rw [(h₁.follows i).unique hfollows,hd,hres]

end Confirmed

namespace Queue

variable {ε E W V : Type} {R : E → Type} {S : ObjectStore ε} {queue : Queue V} {ops : ℕ → Op V}
  {tr : Trace R} {c : Config W R (Except (Error ε) (Outcome V))} {s : S.State}
  {T : Trace (Reply ε)} {m : Config S.State (Reply ε) (Except (Error ε) (Outcome V))}

theorem perform_oblivious (op : Op V) : Oblivious (queue.perform (ε := ε) op) := by
  rw [perform_eq]
  exact procedure_oblivious queue.medium _

theorem mirrored_published {id : MessageId} {value : V}
    (h : Mirrored S queue.location (fun i => (procedure (ops i)).program queue.medium) tr c s T m)
    (hmem : (id,value) ∈ published queue.location ops T) :
    ∃ i, ops i = .publish value ∧
      (c.calls i = .done (.ok (.published id)) ∨ Doubtful Error.store tr c i) := by
  obtain ⟨T₁,ev,T₂,rfl,hp⟩ := Trace.mem_collect.mp hmem
  unfold publication at hp
  split at hp
  · rename_i hop hw
    obtain ⟨id',hhead,hpair⟩ := Option.map_eq_some_iff.mp hp
    obtain ⟨rfl,rfl⟩ := Prod.mk.inj hpair
    obtain ⟨o,doc,doc',reply,v,hdec,hh,hreported⟩ := Mirrored.committed (m := queue.medium) h hw
    have hchange := commit_inv (decode_eq_ok.mp hdec).2.2 hh.planned
    generalize readings (Trace.of ev.call T₁) = nows at hchange
    generalize identifiers (Trace.of ev.call T₁) = ids at hchange hhead
    rw [hop] at hchange
    cases hchange with
    | publish value id =>
        obtain rfl := Option.some.inj hhead
        exact ⟨ev.call,hop,hreported⟩
  · simp at hp

theorem mirrored_acknowledged {id : MessageId}
    (h : Mirrored S queue.location (fun i => (procedure (ops i)).program queue.medium) tr c s T m)
    (hmem : id ∈ acknowledged queue.location ops T) :
    ∃ i token, ops i = .ack id token ∧
      (c.calls i = .done (.ok (.ack .acknowledged)) ∨ Doubtful Error.store tr c i) := by
  obtain ⟨T₁,ev,T₂,rfl,ha⟩ := Trace.mem_collect.mp hmem
  unfold acknowledgement at ha
  split at ha
  · rename_i token o' hop hw
    obtain rfl := Option.some.inj ha
    obtain ⟨o,doc,doc',reply,v,hdec,hh,hreported⟩ := Mirrored.committed (m := queue.medium) h hw
    have hchange := commit_inv (decode_eq_ok.mp hdec).2.2 hh.planned
    generalize readings (Trace.of ev.call T₁) = nows at hchange
    generalize identifiers (Trace.of ev.call T₁) = ids at hchange
    refine ⟨ev.call,token,hop,?_⟩
    rw [hop] at hchange
    cases hchange with
    | ack => exact hreported
  · simp at ha

theorem History.published_of {tr : Trace (Reply ε)}
    {c : Config S.State (Reply ε) (Except (Error ε) (Outcome V))} (h : History queue S ops s tr c)
    {i : ℕ} {id : MessageId} {value : V} (hop : ops i = .publish value)
    (hd : c.calls i = .done (.ok (.published id))) : (id,value) ∈ published queue.location ops tr := by
  have hrun := h.run
  rw [launch_eq] at hrun
  have hf := Run.finished hrun hd
  generalize hres : (Except.ok (.published id) : Except (Error ε) (Outcome V)) = result at hf
  cases hf with
  | responded result hr => simp [reject_error hr] at hres
  | missed | unencodable => simp at hres
  | answered o d result hh =>
      obtain he | ⟨outcome,he,hdur⟩ := respond_inv hh.planned
      · simp [he] at hres
      · obtain rfl := Except.ok.inj (hres.trans he)
        simp [Outcome.durable] at hdur
  | settled h₀ o d d' reply b r hh hb hw =>
      cases r with
      | conflict observed => simp [Medium.settle,ReplaceReply.result] at hres
      | failed source => simp [Medium.settle,ReplaceReply.result] at hres
      | uncertain source v => simp [Medium.settle,ReplaceReply.result] at hres
      | replaced v =>
          obtain ⟨tr₁,ev,tr₂,rfl,rfl,ha,hof⟩ := Trace.of_snoc_inv hw
          have hchange := commit_inv (decode_eq_ok.mp hh.decoded).2.2 hh.planned
          generalize readings h₀ = nows at hchange
          generalize hids : identifiers h₀ = ids at hchange
          rw [hop] at hchange
          cases hchange with
          | publish value id' =>
              obtain rfl : id = id' := by simpa [Medium.settle,ReplaceReply.result] using hres
              have hst : stores queue.location ev = some ⟨b,v⟩ := stores_replace ha
              refine Trace.mem_collect.mpr ⟨tr₁,ev,tr₂,rfl,?_⟩
              simp [publication,hop,hst,hof,hids]

-- What a queue holds, told from what the calls report: no message is lost, none is made up, none
-- comes back.
structure Kept (ops : ℕ → Op V) (tr : Trace R) (c : Config W R (Except (Error ε) (Outcome V)))
    (messages : List (Message V)) : Prop where
  published : ∀ message ∈ messages, ∃ i, ops i = .publish message.value ∧
    (c.calls i = .done (.ok (.published message.id)) ∨ Doubtful Error.store tr c i)
  retained : ∀ i id value, ops i = .publish value → c.calls i = .done (.ok (.published id)) →
    (∃ message ∈ messages, message.id = id ∧ message.value = value) ∨
      ∃ j token, ops j = .ack id token ∧
        (c.calls j = .done (.ok (.ack .acknowledged)) ∨ Doubtful Error.store tr c j)
  removed : ∀ i id token, ops i = .ack id token → c.calls i = .done (.ok (.ack .acknowledged)) →
    ∀ message ∈ messages, message.id ≠ id

theorem early_settled {T₁ T₂ : Trace (Reply ε)}
    {m₁ : Config S.State (Reply ε) (Except (Error ε) (Outcome V))} {i : ℕ} {outcome : Outcome V}
    (h : Mirrored S queue.location (fun i => queue.perform (ops i)) tr c s (T₁ ++ T₂) m)
    (h₁ : Run S.Env ⟨s,fun i => queue.perform (ops i)⟩ T₁ m₁)
    (hnone : ∀ ev ∈ T₂, ¬ Confirms queue.location ev) (hdurable : outcome.durable = true)
    (hd : c.calls i = .done (.ok outcome)) : m₁.calls i = .done (.ok outcome) := by
  have hr := h.run
  rw [launch_eq] at hr h₁
  refine settled_before hr h₁ hnone (fun nows hafter => ?_) (fun h o d hh => ?_) (h.done i _ hd)
  · simpa using reject_error hafter
  · rcases respond_inv hh.planned with he | ⟨outcome',he,hdur⟩
    · simp at he
    · obtain rfl := Except.ok.inj he
      simp [hdurable] at hdur

theorem mirrored_kept_since {o₀ : Object} {T₁ T₂ : Trace (Reply ε)}
    {m₁ : Config S.State (Reply ε) (Except (Error ε) (Outcome V))}
    (hrt : queue.codec.RoundTrips 3) (hs : S.objects s queue.location = some o₀)
    (hempty : queue.emptyBytes (ε := ε) = .ok o₀.bytes)
    (h : Mirrored S queue.location (fun i => queue.perform (ops i)) tr c s (T₁ ++ T₂) m)
    (hfresh : (issued (T₁ ++ T₂)).Nodup)
    (h₁ : Run S.Env ⟨s,fun i => queue.perform (ops i)⟩ T₁ m₁)
    (hnone : ∀ ev ∈ T₂, ¬ Confirms queue.location ev) :
    ∃ o doc, S.objects m₁.world queue.location = some o ∧
      queue.decode (ε := ε) o.bytes = .ok doc ∧ Kept ops tr c doc.messages := by
  have hfresh₁ : (issued T₁).Nodup := by
    rw [issued_append] at hfresh
    exact hfresh.of_append_left
  have hist : History queue S ops s T₁ m₁ := ⟨⟨o₀,hs,hempty⟩,h₁,hfresh₁,h.coherent.of_append⟩
  obtain ⟨messages,hsnap,hexact⟩ := hist.exact hrt
  obtain ⟨o,doc,hobj,hdec,rfl⟩ := hsnap.stored
  have hprocs := h
  simp only [perform_eq] at hprocs
  have hpublished : ∀ {x}, x ∈ published queue.location ops T₁ →
      x ∈ published queue.location ops (T₁ ++ T₂) := by
    intro x hx
    rw [published,Trace.collect_append]
    exact List.mem_append_left _ hx
  have hacknowledged : ∀ {id}, id ∈ acknowledged queue.location ops T₁ →
      id ∈ acknowledged queue.location ops (T₁ ++ T₂) := by
    intro id hid
    rw [acknowledged,Trace.collect_append]
    exact List.mem_append_left _ hid
  refine ⟨o,doc,hobj,hdec,?_,?_,?_⟩
  · intro message hmem
    obtain ⟨hp,-⟩ := (hexact.exactly message.id message.value).mp ⟨message,hmem,rfl,rfl⟩
    exact mirrored_published hprocs (hpublished hp)
  · intro i id value hop hdone
    have hp := hist.published_of hop (early_settled h h₁ hnone rfl hdone)
    by_cases ha : id ∈ acknowledged queue.location ops T₁
    · exact .inr (mirrored_acknowledged hprocs (hacknowledged ha))
    · exact .inl ((hexact.exactly id value).mpr ⟨hp,ha⟩)
  · rintro i id token hop hdone message hmem rfl
    obtain ⟨T₃,ev,T₄,rfl,-,hacks,-⟩ := hist.acks_of hop (early_settled h h₁ hnone rfl hdone)
    obtain ⟨-,ha⟩ := (hexact.exactly message.id message.value).mp ⟨message,hmem,rfl,rfl⟩
    exact ha (hacks.mem_acknowledged T₃ T₄)

theorem mirrored_kept {o₀ : Object} (hrt : queue.codec.RoundTrips 3)
    (hs : S.objects s queue.location = some o₀)
    (hempty : queue.emptyBytes (ε := ε) = .ok o₀.bytes)
    (h : Mirrored S queue.location (fun i => queue.perform (ops i)) tr c s T m)
    (hfresh : (issued T).Nodup) :
    ∃ o doc, S.objects m.world queue.location = some o ∧
      queue.decode (ε := ε) o.bytes = .ok doc ∧ Kept ops tr c doc.messages := by
  have hrun := h.run
  rw [← List.append_nil T] at h hfresh
  exact mirrored_kept_since hrt hs hempty h hfresh hrun (by simp)

end Queue

namespace Log

variable {ε E W V : Type} {R : E → Type} {S : ObjectStore ε} {log : Log V} {ops : ℕ → Op V}
  {tr : Trace R} {c : Config W R (Except (Error ε) (Outcome V))} {s : S.State}
  {T : Trace (Reply ε)} {m : Config S.State (Reply ε) (Except (Error ε) (Outcome V))}

theorem perform_oblivious (op : Op V) : Oblivious (log.perform (ε := ε) op) := by
  rw [perform_eq]
  exact procedure_oblivious log.medium _

theorem mirrored_appends {record : Record V}
    (h : Mirrored S log.location (fun i => (procedure (ops i)).program log.medium) tr c s T m)
    (hmem : record ∈ appends log.location ops T) :
    ∃ i, ops i = .append record.value ∧
      (c.calls i = .done (.ok (.appended record.id)) ∨ Doubtful Error.store tr c i) := by
  obtain ⟨T₁,ev,T₂,rfl,hp⟩ := Trace.mem_collect.mp hmem
  unfold committed at hp
  split at hp
  · rename_i hop hw
    obtain ⟨id,hhead,rfl⟩ := Option.map_eq_some_iff.mp hp
    obtain ⟨o,doc,doc',reply,v,-,hh,hreported⟩ := Mirrored.committed (m := log.medium) h hw
    obtain ⟨value,id',hop',hids,-,rfl⟩ := commit_inv hh.planned
    rw [hids] at hhead
    obtain rfl := Option.some.inj hhead
    exact ⟨ev.call,hop,hreported⟩
  · simp at hp

-- What a log holds, told from what the calls report.
structure Kept (ops : ℕ → Op V) (tr : Trace R) (c : Config W R (Except (Error ε) (Outcome V)))
    (records : List (Record V)) : Prop where
  increasing : Increasing Record.id records
  appended : ∀ record ∈ records, ∃ i, ops i = .append record.value ∧
    (c.calls i = .done (.ok (.appended record.id)) ∨ Doubtful Error.store tr c i)
  retained : ∀ i id value, ops i = .append value → c.calls i = .done (.ok (.appended id)) →
    ⟨id,value⟩ ∈ records

theorem mirrored_kept_since {o₀ : Object} {T₁ T₂ : Trace (Reply ε)}
    {m₁ : Config S.State (Reply ε) (Except (Error ε) (Outcome V))}
    (hrt : log.codec.RoundTrips 3) (hs : S.objects s log.location = some o₀)
    (hempty : log.emptyBytes (ε := ε) = .ok o₀.bytes)
    (h : Mirrored S log.location (fun i => log.perform (ops i)) tr c s (T₁ ++ T₂) m)
    (hfresh : (issued (T₁ ++ T₂)).Nodup)
    (h₁ : Run S.Env ⟨s,fun i => log.perform (ops i)⟩ T₁ m₁)
    (hnone : ∀ ev ∈ T₂, ¬ Confirms log.location ev) :
    ∃ o doc, S.objects m₁.world log.location = some o ∧
      log.decode (ε := ε) o.bytes = .ok doc ∧ Kept ops tr c doc.records := by
  have hfresh₁ : (issued T₁).Nodup := by
    rw [issued_append] at hfresh
    exact hfresh.of_append_left
  have hist : History log S ops s T₁ m₁ := ⟨⟨o₀,hs,hempty⟩,h₁,hfresh₁,h.coherent.of_append⟩
  obtain ⟨records,hsnap,hinc,hperm⟩ := hist.snapshot hrt
  obtain ⟨o,doc,hobj,hdec,rfl⟩ := hsnap.stored
  have hprocs := h
  simp only [perform_eq] at hprocs
  refine ⟨o,doc,hobj,hdec,hinc,fun record hmem => ?_,fun i id value hop hdone => ?_⟩
  · refine mirrored_appends hprocs ?_
    rw [appends,Trace.collect_append]
    exact List.mem_append_left _ (hperm.mem_iff.mp hmem)
  · have hr := h.run
    have hrun := h₁
    rw [launch_eq] at hr hrun
    have hd : m₁.calls i = .done (.ok (.appended id)) := by
      refine settled_before hr hrun hnone (fun nows hafter => ?_) (fun h o d hh => ?_)
        (h.done i _ hdone)
      · exact not_responded hafter
      · obtain ⟨outcome,he,hreports⟩ :=
          respond_inv (decode_eq_ok.mp hh.decoded).2.2 hh.planned
        obtain rfl := Except.ok.inj he
        have hnone := hreports []
        rw [hop] at hnone
        simp [Reports] at hnone
    obtain ⟨_,_,_,_,_,-,-,-,hreports⟩ := hist.reports hd
    rw [hop] at hreports
    exact hperm.mem_iff.mpr hreports

theorem mirrored_kept {o₀ : Object} (hrt : log.codec.RoundTrips 3)
    (hs : S.objects s log.location = some o₀) (hempty : log.emptyBytes (ε := ε) = .ok o₀.bytes)
    (h : Mirrored S log.location (fun i => log.perform (ops i)) tr c s T m)
    (hfresh : (issued T).Nodup) :
    ∃ o doc, S.objects m.world log.location = some o ∧
      log.decode (ε := ε) o.bytes = .ok doc ∧ Kept ops tr c doc.records := by
  have hrun := h.run
  rw [← List.append_nil T] at h hfresh
  exact mirrored_kept_since hrt hs hempty h hfresh hrun (by simp)

end Log

namespace Map

variable {ε E W V : Type} {R : E → Type} {S : ObjectStore ε} {map : Map V} {ops : ℕ → Op V}
  {tr : Trace R} {c : Config W R (Except (Error ε) (Outcome V))} {s : S.State}
  {T T₁ T₂ : Trace (Reply ε)} {m m₁ : Config S.State (Reply ε) (Except (Error ε) (Outcome V))}

theorem perform_oblivious (op : Op V) : Oblivious (map.perform (ε := ε) op) := by
  rw [perform_eq]
  exact procedure_oblivious map.medium _

-- The calls that were answered, with some of those in doubt, took effect one after the other.
structure Explained (start : SortedMap String V) (ops : ℕ → Op V) (tr : Trace R)
    (c : Config W R (Except (Error ε) (Outcome V))) (out : ℕ → Option (Observation V))
    (points : List (ℕ × ℕ)) : Prop where
  linear : Linearization spec start ops (fun _ => True) tr out points
  told : ∀ i r, c.calls i = .done (.ok r) → out i = some r.observe
  cause : ∀ i obs, out i = some obs →
    (∃ r, c.calls i = .done (.ok r) ∧ r.observe = obs) ∨ Doubtful Error.store tr c i

theorem mirrored_explained_at {o₀ : Object} {d₀ : OwnedMapDocument V}
    (hrt : map.codec.RoundTrips 2) (hs : S.objects s map.location = some o₀)
    (hread : map.decode (ε := ε) o₀.bytes = .ok d₀)
    (h : Mirrored S map.location (fun i => map.perform (ops i)) tr c s (T₁ ++ T₂) m)
    (h₁ : Run S.Env ⟨s,fun i => map.perform (ops i)⟩ T₁ m₁) :
    ∃ out points o doc, Linearization spec d₀.entries ops (fun _ => True) tr out points ∧
      (∀ i r, m₁.calls i = .done (.ok r) → out i = some r.observe) ∧
      (∀ i obs, out i = some obs →
        (∃ r, c.calls i = .done (.ok r) ∧ r.observe = obs) ∨ Doubtful Error.store tr c i) ∧
      S.objects m₁.world map.location = some o ∧ map.decode (ε := ε) o.bytes = .ok doc ∧
      doc.entries = (replay spec d₀.entries (points.map (fun p => ops p.2))).1 := by
  have hearly : ∀ {i a}, m₁.calls i = .done a → m.calls i = .done a := h.run.done_early h₁
  have hrun := h₁
  simp only [perform_eq] at hrun
  obtain ⟨o,doc,out,points₀,hobj,hdec,ha⟩ := accounts_run hrt hs hread hrun h.coherent.of_append
  obtain ⟨marks,hmarks,hT⟩ := h.marked
  have hwhole := ha.linear.append T₂
  rw [hT] at hwhole
  obtain ⟨points,hlin,hsame⟩ : ∃ points,
      Linearization spec d₀.entries ops (fun _ => True) tr out points ∧
        points.map Prod.snd = points₀.map Prod.snd :=
    hwhole.spread (hmarks.imp (fun _ _ hown a hmem => ⟨hown a hmem,fun _ => trivial⟩))
  have hops : points.map (fun p => ops p.2) = points₀.map (fun p => ops p.2) := by
    have h := congrArg (List.map ops) hsame
    rw [List.map_map,List.map_map] at h
    exact h
  refine ⟨out,points,o,doc,hlin,fun i r hdone => ?_,fun i obs hout => ?_,hobj,hdec,
    by rw [hops,ha.current]⟩
  · exact ha.told i _ (by rw [hdone]; rfl)
  · have hstarted : Trace.of i tr ≠ [] := by
      obtain ⟨p,hp,rfl⟩ := List.mem_map.mp (hlin.complete i obs hout)
      obtain ⟨ev,hev,hcall,-⟩ := hlin.own p hp
      have hmem : ev.answer ∈ Trace.of p.2 tr :=
        Trace.mem_of.mpr ⟨ev,List.mem_of_getElem? hev,hcall,rfl⟩
      exact List.ne_nil_of_mem hmem
    cases hcalls : c.calls i with
    | perform e next => exact .inr ⟨hstarted,.inl ⟨e,next,hcalls⟩⟩
    | done result =>
        have hresult := h.done i _ hcalls
        rcases ha.cause i obs hout with hanswer | ⟨source,herror⟩
        · obtain ⟨r,hr,hobs⟩ : ∃ r, m₁.calls i = .done (.ok r) ∧ r.observe = obs := by
            cases hm : m₁.calls i with
            | perform e next => simp [hm,answer] at hanswer
            | done a =>
                cases a with
                | error e => simp [hm,answer] at hanswer
                | ok r => exact ⟨r,rfl,by simpa [hm,answer] using hanswer⟩
          exact .inl ⟨r,congrArg _ (Program.done.inj (hresult.symm.trans (hearly hr))),hobs⟩
        · have hfailed := Program.done.inj (hresult.symm.trans (hearly herror))
          exact .inr ⟨hstarted,.inr ⟨source,hcalls.trans (congrArg _ hfailed)⟩⟩

theorem mirrored_explained {o₀ : Object} {d₀ : OwnedMapDocument V}
    (hrt : map.codec.RoundTrips 2) (hs : S.objects s map.location = some o₀)
    (hread : map.decode (ε := ε) o₀.bytes = .ok d₀)
    (h : Mirrored S map.location (fun i => map.perform (ops i)) tr c s T m) :
    ∃ out points o doc, Explained d₀.entries ops tr c out points ∧
      S.objects m.world map.location = some o ∧ map.decode (ε := ε) o.bytes = .ok doc ∧
      doc.entries = (replay spec d₀.entries (points.map (fun p => ops p.2))).1 := by
  have hrun := h.run
  rw [← List.append_nil T] at h
  obtain ⟨out,points,o,doc,hlin,htold,hcause,hobj,hdec,hentries⟩ :=
    mirrored_explained_at hrt hs hread h hrun
  exact ⟨out,points,o,doc,⟨hlin,fun i r hdone => htold i r (h.done i _ hdone),hcause⟩,hobj,hdec,
    hentries⟩

def Outcome.changes : Outcome V → Bool
  | .version _ | .insertIfAbsent (.inserted _) | .removed (some _) => true
  | .value _ | .entries _ | .insertIfAbsent (.occupied _) | .removed none => false

theorem not_responded {op : Op V} {nows : List UInt64} {result : Except (Error ε) (Outcome V)} :
    (procedure (ε := ε) op).after nows ≠ some (.respond result) := by
  cases op <;> simp [procedure]

theorem respond_inv {op : Op V} {d : OwnedMapDocument V} {nows : List UInt64} {ids : List Uuid}
    {result : Except (Error ε) (Outcome V)}
    (h : ∃ first, (procedure op).after nows = some (.transact first) ∧
      (first d).after ids = some (.respond result)) :
    ∃ outcome, result = .ok outcome ∧ outcome.changes = false := by
  obtain ⟨first,hf,ha⟩ := h
  cases op with
  | get key | entries =>
      obtain rfl := Procedure.transact.inj (Procedure.after_transact.mp hf).2
      obtain rfl := Plan.respond.inj (Plan.after_respond.mp ha).2
      exact ⟨_,rfl,rfl⟩
  | insert key value =>
      obtain rfl := Procedure.transact.inj (Procedure.after_transact.mp hf).2
      simpa using (Plan.after_commit.mp ha).2
  | insertIfAbsent key value =>
      obtain rfl := Procedure.transact.inj (Procedure.after_transact.mp hf).2
      cases hk : d.entries.get? key with
      | some found =>
          simp only [hk] at ha
          exact ⟨_,Plan.respond.inj (Plan.after_respond.mp ha).2,rfl⟩
      | none =>
          simp only [hk] at ha
          simpa using (Plan.after_commit.mp ha).2
  | remove key =>
      obtain rfl := Procedure.transact.inj (Procedure.after_transact.mp hf).2
      cases hk : d.entries.get? key with
      | some found =>
          simp only [hk] at ha
          simpa using (Plan.after_commit.mp ha).2
      | none =>
          simp only [hk] at ha
          exact ⟨_,Plan.respond.inj (Plan.after_respond.mp ha).2,rfl⟩

-- What a map holds, told from what the calls report: the calls that took effect, every change
-- that was reported among them, one after the other.
structure Persisted (start : SortedMap String V) (ops : ℕ → Op V) (tr : Trace R)
    (c : Config W R (Except (Error ε) (Outcome V))) (out : ℕ → Option (Observation V))
    (points : List (ℕ × ℕ)) : Prop where
  linear : Linearization spec start ops (fun _ => True) tr out points
  reported : ∀ i r, c.calls i = .done (.ok r) → r.changes = true → out i = some r.observe
  cause : ∀ i obs, out i = some obs →
    (∃ r, c.calls i = .done (.ok r) ∧ r.observe = obs) ∨ Doubtful Error.store tr c i

theorem mirrored_explained_since {o₀ : Object} {d₀ : OwnedMapDocument V}
    (hrt : map.codec.RoundTrips 2) (hs : S.objects s map.location = some o₀)
    (hread : map.decode (ε := ε) o₀.bytes = .ok d₀)
    (h : Mirrored S map.location (fun i => map.perform (ops i)) tr c s (T₁ ++ T₂) m)
    (h₁ : Run S.Env ⟨s,fun i => map.perform (ops i)⟩ T₁ m₁)
    (hnone : ∀ ev ∈ T₂, ¬ Confirms map.location ev) :
    ∃ out points o doc, Persisted d₀.entries ops tr c out points ∧
      S.objects m₁.world map.location = some o ∧ map.decode (ε := ε) o.bytes = .ok doc ∧
      doc.entries = (replay spec d₀.entries (points.map (fun p => ops p.2))).1 := by
  obtain ⟨out,points,o,doc,hlin,htold,hcause,hobj,hdec,hentries⟩ :=
    mirrored_explained_at hrt hs hread h h₁
  refine ⟨out,points,o,doc,⟨hlin,fun i r hdone hchanges => htold i r ?_,hcause⟩,hobj,hdec,hentries⟩
  have hr := h.run
  simp only [perform_eq] at hr h₁
  refine settled_before hr h₁ hnone (fun nows hafter => not_responded hafter) (fun h o d hh => ?_)
    (h.done i _ hdone)
  obtain ⟨outcome,he,hquiet⟩ := respond_inv hh.planned
  obtain rfl := Except.ok.inj he
  simp [hchanges] at hquiet

end Map

end Objsds
