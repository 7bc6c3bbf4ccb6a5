import Objsds.Core.MapLinearizable
import Objsds.Memory.Rehearsal
import Objsds.System.Calls

namespace Objsds

open Foundation

variable {ε V : Type}

section Procedures

theorem map_commit_positive {op : Map.Op V} {nows : List UInt64} {ids : List Uuid}
    {d d' : OwnedMapDocument V} {reply : Version → Map.Outcome V}
    (h : ∃ first, (Map.procedure (ε := ε) op).after nows = some (.transact first) ∧
      (first d).after ids = some (.commit d' reply)) (v : Version) :
    (reply v).answer = .positive := by
  obtain ⟨first,hf,hp⟩ := h
  cases op with
  | get key | entries =>
      obtain rfl := Procedure.transact.inj (Procedure.after_transact.mp hf).2
      simp at hp
  | insert key value =>
      obtain rfl := Procedure.transact.inj (Procedure.after_transact.mp hf).2
      obtain ⟨-,rfl⟩ := Plan.commit.inj (Plan.after_commit.mp hp).2
      rfl
  | insertIfAbsent key value =>
      obtain rfl := Procedure.transact.inj (Procedure.after_transact.mp hf).2
      simp only at hp
      split at hp
      · simp at hp
      · obtain ⟨-,rfl⟩ := Plan.commit.inj (Plan.after_commit.mp hp).2
        rfl
  | remove key =>
      obtain rfl := Procedure.transact.inj (Procedure.after_transact.mp hf).2
      simp only at hp
      split at hp
      · obtain ⟨-,rfl⟩ := Plan.commit.inj (Plan.after_commit.mp hp).2
        rfl
      · simp at hp

theorem queue_durable_positive {outcome : Queue.Outcome V} (h : outcome.durable = true) :
    outcome.answer = .positive := by
  match outcome,h with
  | .published _,_ => rfl
  | .claimed (some _),_ => rfl
  | .ack .acknowledged,_ => rfl

end Procedures

theorem refused_error {Err α : Type} {kind : Err → ErrorKind} {answer : α → Answer}
    {r : Except Err α} (h : Verdict.refused (verdict kind answer r)) :
    (∃ e, r = .error e ∧ kind e ≠ .store) ∨ ∃ a, r = .ok a ∧ answer a ≠ .positive := by
  cases r with
  | error e => exact .inl ⟨e,rfl,fun he => h.2 (by simp [verdict,he])⟩
  | ok a => exact .inr ⟨a,rfl,fun ha => h.1 (by simp [verdict,ha])⟩

theorem lifecycle_silent {D Err H : Type} {kind : Err → ErrorKind} {g : Genesis D Err ε}
    {step : Lifecycle} {handle : H} {h : List (Sigma (Reply ε))} {r : Except Err H}
    (hstore : ∀ source, kind (g.storeError source) = .store)
    (hf : Program.Follows ((fun r => r.map (fun _ => handle)) <$> g.program step) h (.done r))
    (href : Verdict.refused (verdict kind (fun _ => .positive) r)) : ∀ x ∈ h, mutation x = none := by
  obtain ⟨e,rfl,he⟩ | ⟨a,-,ha⟩ := refused_error href
  · obtain ⟨r,hr,hm⟩ := Program.follows_map_done.mp hf
    cases r with
    | ok a => simp at hm
    | error e' =>
        obtain rfl : e' = e := Except.error.inj hm
        refine Genesis.silent step ?_ hr
        rintro source rfl
        exact he (hstore source)
  · exact absurd rfl ha

theorem call_silent (call : Call) {h : List (Sigma (Reply ε))} {v : Verdict}
    (hf : (call.program).Follows h (.done v)) (href : v.refused) : ∀ x ∈ h, mutation x = none := by
  cases call with
  | map handle op =>
      obtain ⟨r,hr,rfl⟩ := Program.follows_map_done.mp hf
      rw [Map.perform_eq] at hr
      have hfin := (Procedure.stage_of_follows hr).finished
      obtain ⟨e,rfl,he⟩ | ⟨a,rfl,ha⟩ := refused_error href
      · exact hfin.silent (fun source hs => he (hs ▸ rfl))
      · exact hfin.silent_ok (fun v hh hv => ha (hv ▸ map_commit_positive hh.planned v))
  | log handle op =>
      obtain ⟨r,hr,rfl⟩ := Program.follows_map_done.mp hf
      rw [Log.perform_eq] at hr
      have hfin := (Procedure.stage_of_follows hr).finished
      obtain ⟨e,rfl,he⟩ | ⟨a,rfl,ha⟩ := refused_error href
      · exact hfin.silent (fun source hs => he (hs ▸ rfl))
      · exact absurd rfl ha
  | queue handle op =>
      obtain ⟨r,hr,rfl⟩ := Program.follows_map_done.mp hf
      rw [Queue.perform_eq] at hr
      have hfin := (Procedure.stage_of_follows hr).finished
      obtain ⟨e,rfl,he⟩ | ⟨a,rfl,ha⟩ := refused_error href
      · exact hfin.silent (fun source hs => he (hs ▸ rfl))
      · refine hfin.silent_ok (fun v hh hv => ha ?_)
        have hc := Queue.commit_inv (Queue.decode_eq_ok.mp hh.decoded).2.2 hh.planned
        exact hv ▸ queue_durable_positive (hc.durable v)
  | mapLifecycle builder step =>
      obtain ⟨r,hr,rfl⟩ := Program.follows_map_done.mp hf
      rw [MapBuilder.run_eq] at hr
      split at hr
      · obtain ⟨rfl,-⟩ := Program.follows_done.mp hr
        simp
      · exact lifecycle_silent (fun _ => rfl) hr href
  | logLifecycle builder step =>
      obtain ⟨r,hr,rfl⟩ := Program.follows_map_done.mp hf
      rw [LogBuilder.run_eq] at hr
      split at hr
      · obtain ⟨rfl,-⟩ := Program.follows_done.mp hr
        simp
      · exact lifecycle_silent (fun _ => rfl) hr href
  | queueLifecycle builder step =>
      obtain ⟨r,hr,rfl⟩ := Program.follows_map_done.mp hf
      rw [QueueBuilder.run_eq] at hr
      split at hr
      · obtain ⟨rfl,-⟩ := Program.follows_done.mp hr
        simp
      · exact lifecycle_silent (fun _ => rfl) hr href

section Memory

variable {α : Type} {c c' : Config Memory.store.State (Reply Empty) α}
  {tr : Trace (Reply Empty)}

theorem run_without {i : ℕ} (h : Run Memory.store.Env c tr c')
    (hs : ∀ ev ∈ tr, ev.call = i → mutation ev.answer = none)
    {d : Config Memory.store.State (Reply Empty) α} (hw : d.world = c.world)
    (hd : ∀ j, j ≠ i → d.calls j = c.calls j) :
    ∃ d', Run Memory.store.Env d (tr.filter (fun ev => ev.call ≠ i)) d' ∧
      d'.world = c'.world ∧ ∀ j, j ≠ i → d'.calls j = c'.calls j := by
  induction h with
  | nil => exact ⟨d,.nil,hw,hd⟩
  | @snoc tr ev m c' hr hstep ih =>
      obtain ⟨d',hrun,hw',hd'⟩ := ih (fun e he => hs e (List.mem_append_left _ he))
      by_cases hi : ev.call = i
      · subst hi
        refine ⟨d',by simpa using hrun,?_,?_⟩
        · rw [hw']
          exact (Memory.env_silent hstep.world (hs ev (by simp) rfl)).symm
        · intro j hj
          rw [hd' j hj,hstep.others (Ne.symm hj)]
      · obtain ⟨w,calls⟩ := d'
        cases hstep with
        | @perform next' w' hc henv =>
            simp only at hw' hd'
            subst hw'
            refine ⟨⟨w',Function.update calls ev.call (next' ev.reply)⟩,?_,rfl,?_⟩
            · rw [List.filter_append]
              have hf : [ev].filter (fun ev => decide (ev.call ≠ i)) = [ev] := by simp [hi]
              rw [hf]
              exact .snoc hrun (.perform ((hd' _ hi).trans hc) henv)
            · intro j hj
              by_cases hje : j = ev.call
              · subst hje
                simp
              · simp [hje,hd' j hj]

end Memory

theorem refusals_write_nothing (i : ℕ) (call : Call) (s : Memory.State)
    (pool : ℕ → Action Empty Verdict) (hcall : pool i = call.program)
    (tr : Trace (Reply Empty)) (c : Config Memory.store.State (Reply Empty) Verdict)
    (hrun : Run Memory.store.Env ⟨s,pool⟩ tr c) (v : Verdict) (hv : c.calls i = .done v)
    (href : v.refused) :
    (∀ ev ∈ tr, ev.call = i → mutation ev.answer = none) ∧
    ∀ idle : Action Empty Verdict, ∃ c' : Config Memory.store.State (Reply Empty) Verdict,
      Run Memory.store.Env ⟨s,Function.update pool i idle⟩ (tr.filter (fun ev => ev.call ≠ i)) c' ∧
        c'.world = c.world ∧ ∀ j, j ≠ i → c'.calls j = c.calls j := by
  have hf := hrun.follows i
  change (pool i).Follows _ _ at hf
  rw [hcall,hv] at hf
  have hsilent := call_silent call hf href
  have hs : ∀ ev ∈ tr, ev.call = i → mutation ev.answer = none :=
    fun ev hev hi => hsilent _ (Trace.mem_of.mpr ⟨ev,hev,hi,rfl⟩)
  refine ⟨hs,fun idle => run_without hrun hs rfl ?_⟩
  intro j hj
  exact Function.update_of_ne hj ..

-- A map is created, and two calls insert into what they have both read.
def bidders (i : ℕ) : Call :=
  if i = 0 then .mapLifecycle ((MapBuilder.new "shop" "orders" textCodec compact).withSchema "v1")
    .create
  else .map Map.orders (.insert "a" "1")

theorem late_bid_writes_nothing : ∃ (tr : Trace (Reply Empty))
    (c : Config Memory.store.State (Reply Empty) Verdict),
    Run Memory.store.Env ⟨Memory.State.default,fun i => (bidders i).program⟩ tr c ∧
      c.calls 0 = .done (.ok .positive) ∧ c.calls 1 = .done (.error .conflict) ∧
      c.calls 2 = .done (.ok .positive) ∧ (writes tr).length = 2 ∧
      (∀ ev ∈ tr, ev.call = 1 → mutation ev.answer = none) ∧
      ∃ c' : Config Memory.store.State (Reply Empty) Verdict,
        Run Memory.store.Env
          ⟨Memory.State.default,Function.update (fun i => (bidders i).program) 1 (bidders 0).program⟩
          (tr.filter (fun ev => ev.call ≠ 1)) c' ∧
        c'.world = c.world ∧ ∀ j, j ≠ 1 → c'.calls j = c.calls j := by
  have hplay : plays Memory.Script.answer Memory.Script.state [(0,9),(1,1),(2,9),(1,9)]
      ⟨⟨[],[],Memory.State.default⟩,fun i => (bidders i).program⟩ (fun tr c =>
        ended (· = .ok .positive) (c.calls 0) && ended (· = .error .conflict) (c.calls 1) &&
        ended (· = .ok .positive) (c.calls 2) && (writes tr).length = 2) = true := by
    decide +kernel
  obtain ⟨tr,c,hr,hends⟩ := Memory.Script.run hplay
  simp only [Bool.and_eq_true,ended_iff,decide_eq_true_eq] at hends
  obtain ⟨⟨⟨⟨_,h0,rfl⟩,⟨_,h1,rfl⟩⟩,⟨_,h2,rfl⟩⟩,hwrites⟩ := hends
  obtain ⟨hsilent,hwithout⟩ := refusals_write_nothing 1 (bidders 1) _ _ rfl tr c hr _ h1
    (by simp [Verdict.refused])
  exact ⟨tr,c,hr,h0,h1,h2,hwrites,hsilent,hwithout (bidders 0).program⟩

end Objsds
