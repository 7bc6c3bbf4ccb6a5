import Objsds.Queue.Leases

namespace Objsds

open Foundation

namespace Queue

variable {ε V : Type}

section Runs

variable {S : ObjectStore ε} {queue : Queue V} {ops : ℕ → Op V} {s : S.State}
  {tr : Trace (Reply ε)} {c : Config S.State (Reply ε) (Except (Error ε) (Outcome V))}
  {ev : Event (Reply ε)}

structure Acks (queue : Queue V) (ops : ℕ → Op V) (id : MessageId) (ev : Event (Reply ε)) :
    Prop where
  op : ∃ token, ops ev.call = .ack id token
  applied : ∃ o, stores queue.location ev = some o

theorem Acks.mem_acknowledged {id : MessageId} (h : Acks queue ops id ev)
    (tr₁ tr₂ : Trace (Reply ε)) : id ∈ acknowledged queue.location ops (tr₁ ++ ev :: tr₂) := by
  obtain ⟨token,hop⟩ := h.op
  obtain ⟨o,hw⟩ := h.applied
  exact Trace.mem_collect.mpr ⟨tr₁,ev,tr₂,rfl,by simp [acknowledgement,hop,hw]⟩

theorem History.acks_of (h : History queue S ops s tr c) {i : ℕ} {id : MessageId}
    {token : LeaseToken} (hop : ops i = .ack id token)
    (hd : c.calls i = .done (.ok (.ack .acknowledged))) :
    ∃ tr₁ ev tr₂, tr = tr₁ ++ ev :: tr₂ ∧ ev.call = i ∧ Acks queue ops id ev ∧
      readings (Trace.of i tr) = readings (Trace.of i tr₁) := by
  have hrun := h.run
  rw [launch_eq] at hrun
  have hf := Run.finished hrun hd
  generalize hres : (Except.ok (.ack .acknowledged) : Except (Error ε) (Outcome V)) = result at hf
  cases hf with
  | responded result hr => simp [reject_error hr] at hres
  | missed => simp at hres
  | unencodable => simp at hres
  | answered o d result hh =>
      obtain he | ⟨outcome,he,hdur⟩ := respond_inv hh.planned
      · simp [he] at hres
      · obtain rfl := Except.ok.inj (hres.trans he)
        simp [Outcome.durable] at hdur
  | settled h₀ o d d' reply b r hh hb hw =>
      cases r with
      | conflict observed => simp [Medium.settle,ReplaceReply.result] at hres
      | failed source => simp [Medium.settle,ReplaceReply.result] at hres
      | uncertain source v => simp [Medium.settle,ReplaceReply.result] at hres
      | replaced v =>
          obtain ⟨tr₁,ev,tr₂,rfl,rfl,ha,hof⟩ := Trace.of_snoc_inv hw
          refine ⟨tr₁,ev,tr₂,rfl,rfl,⟨⟨token,hop⟩,_,stores_replace ha⟩,?_⟩
          rw [hw,hof,readings_append]
          simp

theorem History.ack_commit (h : History queue S ops s tr c) {tr₁ tr₂ : Trace (Reply ε)}
    (htr : tr = tr₁ ++ ev :: tr₂) {id : MessageId} {token : LeaseToken}
    (hop : ops ev.call = .ack id token) {o' : Object} (hw : stores queue.location ev = some o') :
    ∃ c₁ o d m lease now, Run S.Env ⟨s,fun i => queue.perform (ops i)⟩ tr₁ c₁ ∧
      Run S.Env c₁ (ev :: tr₂) c ∧
      S.objects c₁.world queue.location = some o ∧ queue.decode (ε := ε) o.bytes = .ok d ∧
      m ∈ d.messages ∧ m.id = id ∧ m.lease = some lease ∧ lease.token = token ∧
      readings (Trace.of ev.call tr₁) = [now] ∧ now < lease.expiresAtMillis := by
  subst htr
  have hrun := h.run
  rw [launch_eq] at hrun
  obtain ⟨c₁,o,d,d',reply,r,hr,hrest,ho,hd,hc,-,-⟩ := Run.committed_at hrun h.coherent hw
  obtain ⟨o₁,hh,-⟩ := hc.holds
  have hchange := commit_inv (decode_eq_ok.mp hd).2.2 hh.planned
  generalize hnows : readings (Trace.of ev.call tr₁) = nows at hchange
  generalize hids : identifiers (Trace.of ev.call tr₁) = ids at hchange
  rw [hop] at hchange
  rw [← launch_eq] at hr
  cases hchange with
  | ack now before rest message lease hsplit hlease hlt =>
      exact ⟨c₁,o,d,message,lease,now,hr,hrest,ho,hd,by simp [hsplit],rfl,hlease,rfl,rfl,hlt⟩

theorem History.fenced (h : History queue S ops s tr c) (hdef : Definite tr) {i : ℕ}
    {id : MessageId} {token : LeaseToken} (hop : ops i = .ack id token)
    (hd : c.calls i = .done (.ok (.ack .acknowledged))) :
    ∃ tr₁ ev tr₂ g now, tr = tr₁ ++ ev :: tr₂ ∧ ev.call = i ∧ Acks queue ops id ev ∧
      (grantsOf (grants queue.location c tr₁) id).getLast? = some g ∧ g.token = token ∧
      readings (Trace.of i tr) = [now] ∧ now < g.deadline := by
  obtain ⟨tr₁,ev,tr₂,htr,rfl,hacks,hread⟩ := h.acks_of hop hd
  obtain ⟨o',hw⟩ := hacks.applied
  obtain ⟨c₁,o,d,m,lease,now,hr,hrest,ho,hdec,hm,rfl,hlease,rfl,hnow,hlt⟩ := h.ack_commit htr hop hw
  subst htr
  have hpre := h.restrict hr
  obtain ⟨o₂,ho₂,hl⟩ := hpre.leased (fun e he => hdef e (List.mem_append_left _ he))
  obtain rfl : o = o₂ := Option.some.inj (ho.symm.trans ho₂)
  have hrec := (hl.recorded d hdec m.ticket (List.mem_map_of_mem hm)).2
  simp only [Message.ticket,hlease] at hrec
  obtain ⟨g,hg,hgl⟩ := Option.map_eq_some_iff.mp hrec.symm
  have hstable : grants queue.location c tr₁ = grants queue.location c₁ tr₁ := by
    rw [launch_eq] at hr
    exact grants_stable hr h.coherent.of_append hrest
  refine ⟨tr₁,ev,tr₂,g,now,rfl,rfl,hacks,by rw [hstable,hg],?_,hread.trans hnow,?_⟩
  · exact congrArg Lease.token hgl
  · rw [← hgl] at hlt
    exact hlt

-- Once an acknowledgement is applied the identifier never comes back: publications bring fresh
-- identifiers only.
theorem History.gone (h : History queue S ops s tr c) {tr₁ tr₂ : Trace (Reply ε)}
    {id : MessageId} (htr : tr = tr₁ ++ ev :: tr₂) (hacks : Acks queue ops id ev)
    {messages : List (Message V)} (hsnap : Snapshot queue S c.world messages) :
    ∀ m ∈ messages, m.id ≠ id := by
  rintro m hm rfl
  obtain ⟨o,ho,ha⟩ := h.account
  obtain ⟨o',d,ho',hd,rfl⟩ := hsnap.stored
  obtain rfl : o = o' := Option.some.inj (ho.symm.trans ho')
  have hmem := ((ha.stocked d hd).members m.id).mp (List.mem_map_of_mem hm)
  exact hmem.2 (htr ▸ hacks.mem_acknowledged tr₁ tr₂)

theorem History.acked_once (h : History queue S ops s tr c) {tr₁ tr₂ tr₃ tr₄ : Trace (Reply ε)}
    {e e' : Event (Reply ε)} {id : MessageId} (htr : tr = tr₁ ++ e :: tr₂)
    (htr' : tr = tr₃ ++ e' :: tr₄) (he : Acks queue ops id e) (he' : Acks queue ops id e') :
    e = e' := by
  have hlater : ∀ {tr₁ tr₂ mid : Trace (Reply ε)} {e e' : Event (Reply ε)},
      tr = (tr₁ ++ e :: mid) ++ e' :: tr₂ → Acks queue ops id e → Acks queue ops id e' → False := by
    intro tr₁ tr₂ mid e e' htr he he'
    obtain ⟨token,hop⟩ := he'.op
    obtain ⟨o',hw⟩ := he'.applied
    obtain ⟨c₁,o,d,m,lease,now,hr,-,ho,hd,hm,hid,-⟩ := h.ack_commit htr hop hw
    exact ((htr ▸ h).restrict hr).gone rfl he ⟨o,d,ho,hd,rfl⟩ m hm hid
  rcases Trace.split_cases (htr.symm.trans htr') with ⟨-,hee⟩ | ⟨mid,rfl⟩ | ⟨mid,rfl⟩
  · exact hee
  · exact (hlater htr' he he').elim
  · exact (hlater htr he' he).elim

theorem History.claims_others (h : History queue S ops s tr c) {tr₁ mid tr₂ : Trace (Reply ε)}
    {e : Event (Reply ε)} {id : MessageId} {g : Grant}
    (htr : tr = (tr₁ ++ ev :: mid) ++ e :: tr₂) (hacks : Acks queue ops id ev)
    (hg : granted queue.location c (tr₁ ++ ev :: mid) e = some g) : g.id ≠ id := by
  obtain ⟨o',claim,rest,hw,hcall,-,hge⟩ := granted_eq_some.mp hg
  subst htr
  have hrun := h.run
  rw [launch_eq] at hrun
  obtain ⟨c₁,o,d,d',reply,r,hr,-,ho,hd,hc,hv,hcall'⟩ := Run.committed_at hrun h.coherent hw
  obtain ⟨o₁,hh,-⟩ := hc.holds
  have hchange := commit_inv (decode_eq_ok.mp hd).2.2 hh.planned
  have hsettle := Program.done.inj (hcall'.symm.trans hcall)
  rw [← launch_eq] at hr
  have hgone := (h.restrict hr).gone rfl hacks ⟨o,d,ho,hd,rfl⟩
  cases r with
  | conflict observed => simp [ReplaceReply.written] at hv
  | failed source => simp [ReplaceReply.written] at hv
  | uncertain source v => simp [Medium.settle,ReplaceReply.result] at hsettle
  | replaced v =>
      have hreply : reply v = .claimed (some claim) := Except.ok.inj hsettle
      generalize readings (Trace.of e.call (tr₁ ++ ev :: mid)) = nows at hchange
      generalize identifiers (Trace.of e.call (tr₁ ++ ev :: mid)) = ids at hchange
      generalize ops e.call = op at hchange
      cases hchange with
      | publish => simp at hreply
      | ack => simp at hreply
      | claim leaseDuration leaseMillis now deadline token before rest message attempts _ _ hsplit =>
          obtain rfl := Option.some.inj (Outcome.claimed.inj hreply)
          rw [hge]
          exact hgone message (by simp [hsplit])

theorem History.acks_missing (h : History queue S ops s tr c) {tr₁ mid tr₂ : Trace (Reply ε)}
    {j : ℕ} {id : MessageId} {token : LeaseToken} {o : Object} {d : Document V}
    (htr : tr = (tr₁ ++ ev :: mid) ++ ⟨j,.store (.get queue.location),.ok (some o)⟩ :: tr₂)
    (hacks : Acks queue ops id ev) (hop : ops j = .ack id token)
    (hd : queue.decode (ε := ε) o.bytes = .ok d) :
    c.calls j = .done (.ok (.ack .notFound)) := by
  subst htr
  obtain ⟨c₁,c₂,h₁,hs,h₂⟩ := h.run.split
  have ho : S.objects c₁.world queue.location = some o := by
    rcases hs.world.atomic.got_inv with he | ⟨e,he⟩
    · exact (Except.ok.inj he).symm
    · simp at he
  have hgone := (h.restrict h₁).gone rfl hacks ⟨o,d,ho,hd,rfl⟩
  rw [launch_eq] at h₁
  have hquiet := Step.quiet h₁ hs ho hd rfl
  refine h₂.done_stays ?_
  generalize hnext : c₂.calls j = next at hquiet
  cases hquiet with
  | clock cont now _ hans => simp [Event.answer] at hans
  | getFailed e hans => simp [Event.answer] at hans
  | generated o₀ d₀ cont id _ hans => simp [Event.answer] at hans
  | refused o₀ reply b r hans => simp [Event.answer] at hans
  | got plan hreach =>
      rw [hop] at hreach
      rcases Procedure.after_clock.mp hreach with ⟨-,hc⟩ | ⟨now,rest,-,hc⟩
      · simp at hc
      · obtain rfl := Procedure.transact.inj (Procedure.after_transact.mp hc).2
        rw [ackPlan_missing token now (decode_eq_ok.mp hd).2.2 hgone]
        rfl

theorem History.readable (h : History queue S ops s tr c) (hrt : queue.codec.RoundTrips 3) {j : ℕ}
    {o : Object} (hg : ⟨.store (.get queue.location),.ok (some o)⟩ ∈ Trace.of j tr) :
    ∃ d, queue.decode (ε := ε) o.bytes = .ok d := by
  obtain ⟨tr₁,tr₂,c₁,rfl,hr,ho | ⟨e,he⟩⟩ := Run.got h.run hg
  · obtain ⟨o',ho',ha⟩ := (h.restrict hr).account
    obtain rfl : o = o' := Option.some.inj ((Except.ok.inj ho).trans ho')
    exact ha.readable hrt
  · simp at he

end Runs

theorem ack_is_fenced (S : ObjectStore ε) (queue : Queue V) (ops : ℕ → Op V) (s : S.State)
    (tr : Trace (Reply ε)) (c : Config S.State (Reply ε) (Except (Error ε) (Outcome V)))
    (h : History queue S ops s tr c) (hdef : Definite tr) :
    (∀ i id token, ops i = .ack id token → c.calls i = .done (.ok (.ack .acknowledged)) →
      ∃ tr₁ ev tr₂ g now, tr = tr₁ ++ ev :: tr₂ ∧ ev.call = i ∧ Acks queue ops id ev ∧
        (grantsOf (grants queue.location c tr₁) id).getLast? = some g ∧ g.token = token ∧
        readings (Trace.of i tr) = [now] ∧ now < g.deadline) ∧
    (∀ i j id token token', ops i = .ack id token → ops j = .ack id token' →
      c.calls i = .done (.ok (.ack .acknowledged)) →
      c.calls j = .done (.ok (.ack .acknowledged)) → i = j) ∧
    ∀ tr₁ ev tr₂ id, tr = tr₁ ++ ev :: tr₂ → Acks queue ops id ev →
      (∀ mid rest c₁ messages, tr₂ = mid ++ rest →
        Run S.Env ⟨s,fun i => queue.perform (ops i)⟩ (tr₁ ++ ev :: mid) c₁ →
        Snapshot queue S c₁.world messages → ∀ m ∈ messages, m.id ≠ id) ∧
      (∀ mid e rest g, tr₂ = mid ++ e :: rest →
        granted queue.location c (tr₁ ++ ev :: mid) e = some g → g.id ≠ id) ∧
      ∀ mid j token o rest, ops j = .ack id token →
        tr₂ = mid ++ ⟨j,.store (.get queue.location),.ok (some o)⟩ :: rest →
        queue.codec.RoundTrips 3 ∨ (∃ d, queue.decode (ε := ε) o.bytes = .ok d) →
        c.calls j = .done (.ok (.ack .notFound)) := by
  refine ⟨fun i id token hop hd => h.fenced hdef hop hd,?_,?_⟩
  · intro i j id token token' hi hj hdi hdj
    obtain ⟨tr₁,e,tr₂,htr,rfl,he,-⟩ := h.acks_of hi hdi
    obtain ⟨tr₃,e',tr₄,htr',rfl,he',-⟩ := h.acks_of hj hdj
    rw [h.acked_once htr htr' he he']
  · rintro tr₁ ev tr₂ id rfl hacks
    refine ⟨?_,?_,?_⟩
    · rintro mid rest c₁ messages rfl hr hsnap
      have h' : History queue S ops s ((tr₁ ++ ev :: mid) ++ rest) c := by simpa using h
      exact (h'.restrict hr).gone rfl hacks hsnap
    · rintro mid e rest g rfl hg
      have htr : tr₁ ++ ev :: (mid ++ e :: rest) = (tr₁ ++ ev :: mid) ++ e :: rest := by simp
      exact h.claims_others htr hacks hg
    · rintro mid j token o rest hop rfl hread
      have hd : ∃ d, queue.decode (ε := ε) o.bytes = .ok d := by
        rcases hread with hrt | hd
        · refine h.readable hrt (Trace.mem_of.mpr
            ⟨⟨j,.store (.get queue.location),.ok (some o)⟩,by simp,rfl,rfl⟩)
        · exact hd
      obtain ⟨d,hd⟩ := hd
      have h' : History queue S ops s ((tr₁ ++ ev :: mid) ++
          ⟨j,.store (.get queue.location),.ok (some o)⟩ :: rest) c := by simpa using h
      exact h'.acks_missing rfl hacks hop hd

theorem shift_ack_fenced : ∃ (s : Memory.State) (tr : Trace (Reply Empty))
    (c : Config Memory.store.State (Reply Empty) (Except (Error Empty) (Outcome String))),
    History jobs Memory.store shift s tr c ∧ c.calls 4 = .done (.ok (.ack .acknowledged)) ∧
      ∃ tr₁ ev tr₂ g, tr = tr₁ ++ ev :: tr₂ ∧ Acks jobs shift 5 ev ∧
        (grantsOf (grants jobs.location c tr₁) 5).getLast? = some g ∧ g.token = 9 := by
  obtain ⟨s,tr,c,h,-,-,-,hack⟩ := shift_history
  obtain ⟨tr₁,ev,tr₂,g,now,htr,-,hacks,hg,ht,-⟩ :=
    (ack_is_fenced Memory.store jobs shift s tr c h (definite_empty tr)).1 4 5 9 rfl hack
  exact ⟨s,tr,c,h,hack,tr₁,ev,tr₂,g,htr,hacks,hg,ht⟩

end Queue

end Objsds
