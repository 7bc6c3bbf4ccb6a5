import Objsds.Structure.Procedure

namespace Objsds

open Foundation

variable {D Err ε α : Type} {m : Medium D Err ε}

section Effects

variable {p : Procedure D Err α} {h : List (Sigma (Reply ε))}

theorem Procedure.Stage.get_inv {l : Location}
    {next : Except ε (Option Object) → Action ε (Except Err α)}
    (hs : p.Stage m h (.perform (.store (.get l)) next)) :
    l = m.location ∧ ∃ plan, p.after (readings h) = some (.transact plan) ∧
      (∀ x ∈ h, ∃ now, x = ⟨.nowMillis,now⟩) ∧ next = m.resume plan := by
  generalize hq : (.perform (.store (.get l)) next : Action ε (Except Err α)) = q at hs
  cases hs with
  | waiting p' hr hc =>
      cases p' with
      | respond result => simp [Procedure.program] at hq
      | clock cont => simp [Procedure.program] at hq
      | transact plan =>
          simp only [Procedure.program,Program.perform.injEq,Effect.store.injEq,
            Request.get.injEq] at hq
          obtain ⟨rfl,hn⟩ := hq
          exact ⟨rfl,plan,hr,hc,eq_of_heq hn⟩
  | missed => simp at hq
  | holding o d plan hh =>
      cases plan with
      | respond result => simp [Plan.program] at hq
      | generate cont => simp [Plan.program] at hq
      | commit d' reply =>
          simp only [Plan.program] at hq
          split at hq <;> simp at hq
  | settled => simp at hq

theorem Procedure.Stage.replace_inv {l : Location} {x : Version} {b : Bytes}
    {next : ReplaceReply ε → Action ε (Except Err α)}
    (hs : p.Stage m h (.perform (.store (.replace l x b)) next)) :
    l = m.location ∧ ∃ o d d' reply, o.version = x ∧ p.Holds m h o d (.commit d' reply) ∧
      m.encode d' = .ok b ∧ next = fun r => .done (m.settle x reply r) := by
  generalize hq : (.perform (.store (.replace l x b)) next : Action ε (Except Err α)) = q at hs
  cases hs with
  | waiting p' => cases p' <;> simp [Procedure.program] at hq
  | missed => simp at hq
  | holding o d plan hh =>
      cases plan with
      | respond result => simp [Plan.program] at hq
      | generate cont => simp [Plan.program] at hq
      | commit d' reply =>
          simp only [Plan.program] at hq
          split at hq
          · simp at hq
          · rename_i b' hb
            simp only [Program.perform.injEq,Effect.store.injEq,Request.replace.injEq] at hq
            obtain ⟨⟨rfl,rfl,rfl⟩,hn⟩ := hq
            exact ⟨rfl,o,d,d',reply,rfl,hh,hb,eq_of_heq hn⟩
  | settled => simp at hq

theorem Procedure.Stage.create_inv {l : Location} {b : Bytes}
    {next : CreateReply ε → Action ε (Except Err α)}
    (hs : p.Stage m h (.perform (.store (.create l b)) next)) : False := by
  generalize hq : (.perform (.store (.create l b)) next : Action ε (Except Err α)) = q at hs
  cases hs with
  | waiting p' => cases p' <;> simp [Procedure.program] at hq
  | missed => simp at hq
  | holding o d plan hh =>
      cases plan with
      | respond result => simp [Plan.program] at hq
      | generate cont => simp [Plan.program] at hq
      | commit d' reply =>
          simp only [Plan.program] at hq
          split at hq <;> simp at hq
  | settled => simp at hq

theorem Procedure.Stage.nowMillis_inv {next : UInt64 → Action ε (Except Err α)}
    (hs : p.Stage m h (.perform .nowMillis next)) :
    ∃ cont, p.after (readings h) = some (.clock cont) ∧
      (∀ x ∈ h, ∃ now, x = ⟨.nowMillis,now⟩) ∧ next = fun now => (cont now).program m := by
  generalize hq : (.perform .nowMillis next : Action ε (Except Err α)) = q at hs
  cases hs with
  | waiting p' hr hc =>
      cases p' with
      | respond result => simp [Procedure.program] at hq
      | clock cont =>
          simp only [Procedure.program,Program.perform.injEq,heq_eq_eq,true_and] at hq
          exact ⟨cont,hr,hc,hq⟩
      | transact plan => simp [Procedure.program] at hq
  | missed => simp at hq
  | holding o d plan hh =>
      cases plan with
      | respond result => simp [Plan.program] at hq
      | generate cont => simp [Plan.program] at hq
      | commit d' reply =>
          simp only [Plan.program] at hq
          split at hq <;> simp at hq
  | settled => simp at hq

theorem Procedure.Stage.nowV7_inv {next : Uuid → Action ε (Except Err α)}
    (hs : p.Stage m h (.perform .nowV7 next)) :
    ∃ o d cont, p.Holds m h o d (.generate cont) ∧
      next = fun id => (cont id).program m o.version := by
  generalize hq : (.perform .nowV7 next : Action ε (Except Err α)) = q at hs
  cases hs with
  | waiting p' => cases p' <;> simp [Procedure.program] at hq
  | missed => simp at hq
  | holding o d plan hh =>
      cases plan with
      | respond result => simp [Plan.program] at hq
      | generate cont =>
          simp only [Plan.program,Program.perform.injEq,heq_eq_eq,true_and] at hq
          exact ⟨o,d,cont,hh,hq⟩
      | commit d' reply =>
          simp only [Plan.program] at hq
          split at hq <;> simp at hq
  | settled => simp at hq

inductive Procedure.Finished (m : Medium D Err ε) (p : Procedure D Err α)
    (h : List (Sigma (Reply ε))) : Except Err α → Prop
  | responded (result : Except Err α) (reached : p.after (readings h) = some (.respond result))
      (clocks : ∀ x ∈ h, ∃ now, x = ⟨.nowMillis,now⟩) : Finished m p h result
  | missed (r : Except ε (Option Object)) (e : Err)
      (got : ⟨.store (.get m.location),r⟩ ∈ h) (bad : m.snapshot r = .error e)
      (reads : ∀ x ∈ h, isRead x = true) : Finished m p h (.error e)
  | answered (o : Object) (d : D) (result : Except Err α)
      (holds : p.Holds m h o d (.respond result)) : Finished m p h result
  | unencodable (o : Object) (d d' : D) (reply : Version → α) (e : Err)
      (holds : p.Holds m h o d (.commit d' reply)) (failed : m.encode d' = .error e) :
      Finished m p h (.error e)
  | settled (h₀ : List (Sigma (Reply ε))) (o : Object) (d d' : D) (reply : Version → α)
      (b : Bytes) (r : ReplaceReply ε) (holds : p.Holds m h₀ o d (.commit d' reply))
      (encoded : m.encode d' = .ok b)
      (written : h = h₀ ++ [⟨.store (.replace m.location o.version b),r⟩]) :
      Finished m p h (m.settle o.version reply r)

theorem Procedure.Stage.finished {result : Except Err α} (hs : p.Stage m h (.done result)) :
    p.Finished m h result := by
  generalize hq : (.done result : Action ε (Except Err α)) = q at hs
  cases hs with
  | waiting p' hr hc =>
      cases p' with
      | respond result' =>
          obtain rfl := Program.done.inj hq
          exact .responded result hr hc
      | clock cont => simp [Procedure.program] at hq
      | transact plan => simp [Procedure.program] at hq
  | missed r e hg hb hr =>
      obtain rfl := Program.done.inj hq
      exact .missed r e hg hb hr
  | holding o d plan hh =>
      cases plan with
      | respond result' =>
          obtain rfl := Program.done.inj hq
          exact .answered o d result hh
      | generate cont => simp [Plan.program] at hq
      | commit d' reply =>
          simp only [Plan.program] at hq
          split at hq
          · rename_i e he
            obtain rfl := Program.done.inj hq
            exact .unencodable o d d' reply e hh he
          · simp at hq
  | settled h₀ o d d' reply b r hh hb hw =>
      obtain rfl := Program.done.inj hq
      exact .settled h₀ o d d' reply b r hh hb hw

theorem mutation_of_isRead {x : Sigma (Reply ε)} (hx : isRead x = true) : mutation x = none := by
  obtain ⟨e,r⟩ := x
  match e,r,hx with
  | .nowMillis,_,_ => rfl
  | .nowV7,_,_ => rfl
  | .store (.get _),_,_ => rfl

theorem identifier_fresh {tr₁ tr₂ : Trace (Reply ε)} {ev : Event (Reply ε)} {i : ℕ} {id : Uuid}
    {l : Location} {o : Object} (hfresh : (issued (tr₁ ++ ev :: tr₂)).Nodup)
    (hreads : ∀ x ∈ Trace.of i (tr₁ ++ ev :: tr₂), isRead x = true)
    (hw : stores l ev = some o) (hev : id ∈ identifiers (Trace.of ev.call tr₁)) :
    id ∉ identifiers (Trace.of i (tr₁ ++ ev :: tr₂)) := by
  intro hid
  have hmem : id ∈ identifiers (Trace.of ev.call (tr₁ ++ ev :: tr₂)) := by
    rw [Trace.of_append,identifiers_append]
    exact List.mem_append_left _ hev
  obtain rfl := issued_caller hfresh hid hmem
  have hread := hreads ev.answer (Trace.mem_of.mpr ⟨ev,by simp,rfl,rfl⟩)
  rw [stores_of_mutation (mutation_of_isRead hread)] at hw
  simp at hw

-- What a committing procedure leaves readable, and which identifiers the new document can hold.
def Medium.Keeps (m : Medium D Err ε) (keys : D → List Uuid) (p : Procedure D Err α) : Prop :=
  ∀ ⦃nows ids d d' reply b₀ b⦄, m.decode b₀ = .ok d →
    (∃ first, p.after nows = some (.transact first) ∧
      (first d).after ids = some (.commit d' reply)) →
    (∀ id ∈ ids, id ∉ keys d) → m.encode d' = .ok b →
    ∃ d'', m.decode b = .ok d'' ∧ ∀ k ∈ keys d'', k ∈ keys d ∨ k ∈ ids

theorem Medium.Keeps.replace {keys : D → List Uuid} (hk : m.Keeps keys p) {l : Location}
    {x : Version} {b : Bytes} {next : ReplaceReply ε → Action ε (Except Err α)}
    (hf : (p.program m).Follows h (.perform (.store (.replace l x b)) next)) :
    l = m.location ∧ ∃ o d, ⟨.store (.get m.location),.ok (some o)⟩ ∈ h ∧
      (∀ x ∈ h, isRead x = true) ∧ m.decode o.bytes = .ok d ∧
      ((∀ id ∈ identifiers h, id ∉ keys d) →
        ∃ d', m.decode b = .ok d' ∧ ∀ k ∈ keys d', k ∈ keys d ∨ k ∈ identifiers h) := by
  obtain ⟨rfl,o,d,d',reply,-,hh,hb,-⟩ := (Procedure.stage_of_follows hf).replace_inv
  exact ⟨rfl,o,d,hh.got,hh.reads,hh.decoded,fun hnew => hk hh.decoded hh.planned hnew hb⟩

theorem Procedure.Finished.silent {e : Err} (hf : p.Finished m h (.error e))
    (hs : ∀ source, e ≠ m.storeError source) : ∀ x ∈ h, mutation x = none := by
  generalize hres : (Except.error e : Except Err α) = result at hf
  intro x hx
  cases hf with
  | responded result hr hc => exact mutation_of_isRead (reads_of_clocks hc x hx)
  | missed r e' hg hb hr => exact mutation_of_isRead (hr x hx)
  | answered o d result hh => exact mutation_of_isRead (hh.reads x hx)
  | unencodable o d d' reply e' hh => exact mutation_of_isRead (hh.reads x hx)
  | settled h₀ o d d' reply b r hh hb hw =>
      subst hw
      rcases List.mem_append.mp hx with hx | hx
      · exact mutation_of_isRead (hh.reads x hx)
      · rw [List.mem_singleton.mp hx]
        cases r with
        | replaced v => simp [Medium.settle,ReplaceReply.result] at hres
        | conflict observed => rfl
        | failed source => rfl
        | uncertain source v =>
            simp only [Medium.settle,ReplaceReply.result,Except.error.injEq] at hres
            exact absurd hres (hs source)

theorem Procedure.Finished.silent_ok {a : α} (hf : p.Finished m h (.ok a))
    (hne : ∀ {h₀ o d d' reply} (v : Version), p.Holds m h₀ o d (.commit d' reply) → reply v ≠ a) :
    ∀ x ∈ h, mutation x = none := by
  generalize hres : (Except.ok a : Except Err α) = result at hf
  intro x hx
  cases hf with
  | responded result hr hc => exact mutation_of_isRead (reads_of_clocks hc x hx)
  | missed r e' hg hb hr => exact mutation_of_isRead (hr x hx)
  | answered o d result hh => exact mutation_of_isRead (hh.reads x hx)
  | unencodable o d d' reply e' hh => exact mutation_of_isRead (hh.reads x hx)
  | settled h₀ o d d' reply b r hh hb hw =>
      cases r with
      | replaced v => exact absurd (Except.ok.inj hres).symm (hne v hh)
      | conflict observed => simp [Medium.settle,ReplaceReply.result] at hres
      | failed source => simp [Medium.settle,ReplaceReply.result] at hres
      | uncertain source v => simp [Medium.settle,ReplaceReply.result] at hres

end Effects

section System

variable {S : ObjectStore ε} {procs : ℕ → Procedure D Err α} {s : S.State}
  {tr : Trace (Reply ε)} {c c' : Config S.State (Reply ε) (Except Err α)}
  {ev : Event (Reply ε)}

def launch (S : ObjectStore ε) (m : Medium D Err ε) (procs : ℕ → Procedure D Err α)
    (s : S.State) : Config S.State (Reply ε) (Except Err α) :=
  ⟨s,fun i => (procs i).program m⟩

theorem Run.stage (h : Run S.Env (launch S m procs s) tr c) (i : ℕ) :
    (procs i).Stage m (Trace.of i tr) (c.calls i) :=
  Procedure.stage_of_follows (h.follows i)

theorem Run.got_mem_held {c₀ : Config S.State (Reply ε) α}
    {c : Config S.State (Reply ε) α} (h : Run S.Env c₀ tr c) {i : ℕ} {l : Location}
    {o : Object} (hg : ⟨.store (.get l),.ok (some o)⟩ ∈ Trace.of i tr) :
    o ∈ held (S.objects c₀.world l) l tr := by
  obtain ⟨tr₁,tr₂,n,rfl,hn,ho | ⟨e,he⟩⟩ := Run.got h hg
  · rw [held_append]
    exact List.mem_append_left _ (Run.current_mem_held hn (Except.ok.inj ho).symm)
  · simp at he

theorem Run.finished (h : Run S.Env (launch S m procs s) tr c) {i : ℕ} {result : Except Err α}
    (hd : c.calls i = .done result) : (procs i).Finished m (Trace.of i tr) result := by
  have hs := Run.stage h i
  rw [hd] at hs
  exact hs.finished

theorem Run.error_inv (h : Run S.Env (launch S m procs s) tr c)
    (hread : ∀ tr₁ tr₂ c₁, tr = tr₁ ++ tr₂ → Run S.Env (launch S m procs s) tr₁ c₁ →
      ∃ o d, S.objects c₁.world m.location = some o ∧ m.decode o.bytes = .ok d)
    (henc : ∀ d, ∃ b, m.encode d = .ok b) {i : ℕ} {e : Err} (hd : c.calls i = .done (.error e)) :
    (∃ source, e = m.storeError source ∧ ∃ x ∈ Trace.of i tr, storeFailed x) ∨
      (∃ expected observed, e = m.conflict expected observed) ∨
      (∃ o d, (procs i).Holds m (Trace.of i tr) o d (.respond (.error e))) ∨
      (procs i).after (readings (Trace.of i tr)) = some (.respond (.error e)) := by
  have hf := Run.finished h hd
  generalize hres : (Except.error e : Except Err α) = result at hf
  cases hf with
  | responded result hr => exact .inr (.inr (.inr (hres ▸ hr)))
  | missed r e' hg hb =>
      obtain rfl := Except.error.inj hres
      obtain ⟨tr₁,tr₂,n,rfl,hn,rfl | ⟨source,rfl⟩⟩ := Run.got h hg
      · obtain ⟨o,d,ho,hdec⟩ := hread tr₁ _ n rfl hn
        simp [ho,Medium.snapshot,hdec,Except.map] at hb
      · exact .inl ⟨source,(Except.error.inj hb).symm,_,hg,source,rfl⟩
  | answered o d result hh => exact .inr (.inr (.inl ⟨o,d,hres ▸ hh⟩))
  | unencodable o d d' reply e' hh he =>
      obtain ⟨b,hb⟩ := henc d'
      exact absurd (hb.symm.trans he) (by simp)
  | settled h₀ o d d' reply b r hh hb hw =>
      have hx := List.mem_append_right h₀ (List.mem_singleton_self
        (⟨.store (.replace m.location o.version b),r⟩ : Sigma (Reply ε)))
      rw [← hw] at hx
      cases r with
      | replaced v => simp [Medium.settle,ReplaceReply.result] at hres
      | conflict observed => exact .inr (.inl ⟨o.version,observed,Except.error.inj hres⟩)
      | failed source => exact .inl ⟨source,Except.error.inj hres,_,hx,source,rfl⟩
      | uncertain source v => exact .inl ⟨source,Except.error.inj hres,_,hx,source,rfl⟩

theorem Run.read_result (h : Run S.Env (launch S m procs s) tr c) {i : ℕ} {a : α}
    {f : D → Except Err α} (hp : procs i = .transact (fun d => .respond (f d)))
    (hd : c.calls i = .done (.ok a)) :
    ∃ o d tr₁ tr₂ c₁, tr = tr₁ ++ ⟨i,.store (.get m.location),.ok (some o)⟩ :: tr₂ ∧
      Run S.Env (launch S m procs s) tr₁ c₁ ∧ S.objects c₁.world m.location = some o ∧
      m.decode o.bytes = .ok d ∧ f d = .ok a := by
  have hf := Run.finished h hd
  generalize hres : (Except.ok a : Except Err α) = result at hf
  have hplan : ∀ {o d plan h₀}, (procs i).Holds m h₀ o d plan → plan = .respond (f d) := by
    intro o d plan h₀ hh
    obtain ⟨first,hfirst,ha⟩ := hh.planned
    rw [hp] at hfirst
    obtain rfl := Procedure.transact.inj (Procedure.after_transact.mp hfirst).2
    exact (Plan.after_respond.mp ha).2
  cases hf with
  | responded result hr => simp [hp] at hr
  | missed => simp at hres
  | unencodable => simp at hres
  | settled h₀ o d d' reply b r hh => exact absurd (hplan hh) (by simp)
  | answered o d result hh =>
      obtain ⟨tr₁,tr₂,c₁,htr,hr,ho | ⟨e,he⟩⟩ := Run.got h hh.got
      · refine ⟨o,d,tr₁,tr₂,c₁,htr,hr,(Except.ok.inj ho).symm,hh.decoded,?_⟩
        exact (Plan.respond.inj (hplan hh)).symm
      · simp at he

structure Committed (m : Medium D Err ε) (p : Procedure D Err α) (h : List (Sigma (Reply ε)))
    (ev : Event (Reply ε)) (d d' : D) (reply : Version → α) (r : ReplaceReply ε) : Prop where
  holds : ∃ o, p.Holds m h o d (.commit d' reply) ∧
    ∃ b, m.encode d' = .ok b ∧ ev.answer = ⟨.store (.replace m.location o.version b),r⟩

-- The compare-and-swap argument: the token matched, so by coherence the stale snapshot holds
-- the bytes that are current, and the plan was made on the current document.
theorem Step.committed (h : Run S.Env (launch S m procs s) tr c)
    (hcoh : Coherent (held (S.objects s m.location) m.location tr))
    (hs : Step S.Env c ev c') {o' : Object} (hw : stores m.location ev = some o') :
    ∃ o d d' reply r, S.objects c.world m.location = some o ∧ m.decode o.bytes = .ok d ∧
      Committed m (procs ev.call) (Trace.of ev.call tr) ev d d' reply r ∧
      m.encode d' = .ok o'.bytes ∧ r.written = some o'.version ∧
      c'.calls ev.call = .done (m.settle o.version reply r) := by
  obtain ⟨next,hc,hc'⟩ := hs.caller
  have hstage := Run.stage h ev.call
  rw [hc] at hstage
  obtain ⟨i,e,r⟩ := ev
  match e,r,hw with
  | .store (.create l b),r,hw => exact (hstage.create_inv).elim
  | .store (.replace l x b),r,hw =>
      obtain ⟨rfl,o,d,d',reply,hx,hh,hb,rfl⟩ := hstage.replace_inv
      simp only [stores,Request.stores,if_true,Option.map_eq_some_iff] at hw
      obtain ⟨v,hv,rfl⟩ := hw
      obtain ⟨cur,hcur,hver⟩ := hs.world.atomic.replaced_inv hv
      have hbytes : cur.bytes = o.bytes :=
        hcoh cur (Run.current_mem_held h hcur) o (Run.got_mem_held h hh.got) (hver.trans hx.symm)
      subst hx
      refine ⟨cur,d,d',reply,r,hcur,by rw [hbytes]; exact hh.decoded,⟨o,hh,b,hb,rfl⟩,hb,hv,?_⟩
      rw [hver]
      exact hc'

theorem Run.committed_at {tr₁ tr₂ : Trace (Reply ε)} {o' : Object}
    (h : Run S.Env (launch S m procs s) (tr₁ ++ ev :: tr₂) c)
    (hcoh : Coherent (held (S.objects s m.location) m.location (tr₁ ++ ev :: tr₂)))
    (hw : stores m.location ev = some o') :
    ∃ c₁ o d d' reply r, Run S.Env (launch S m procs s) tr₁ c₁ ∧ Run S.Env c₁ (ev :: tr₂) c ∧
      S.objects c₁.world m.location = some o ∧ m.decode o.bytes = .ok d ∧
      Committed m (procs ev.call) (Trace.of ev.call tr₁) ev d d' reply r ∧
      r.written = some o'.version ∧ c.calls ev.call = .done (m.settle o.version reply r) := by
  obtain ⟨c₁,c₂,h₁,hs,h₂⟩ := h.split
  obtain ⟨o,d,d',reply,r,ho,hd,hc,-,hv,hcall⟩ := Step.committed h₁ hcoh.of_append hs hw
  exact ⟨c₁,o,d,d',reply,r,h₁,.cons hs h₂,ho,hd,hc,hv,h₂.done_stays hcall⟩

inductive Quiet (m : Medium D Err ε) (p : Procedure D Err α) (h : List (Sigma (Reply ε)))
    (o : Object) (d : D) (ev : Event (Reply ε)) : Action ε (Except Err α) → Prop
  | clock (cont : UInt64 → Procedure D Err α) (now : UInt64)
      (reached : p.after (readings h) = some (.clock cont))
      (answer : ev.answer = ⟨.nowMillis,now⟩) : Quiet m p h o d ev ((cont now).program m)
  | got (plan : D → Plan D Err α) (reached : p.after (readings h) = some (.transact plan))
      (answer : ev.answer = ⟨.store (.get m.location),.ok (some o)⟩) :
      Quiet m p h o d ev ((plan d).program m o.version)
  | getFailed (e : ε) (answer : ev.answer = ⟨.store (.get m.location),.error e⟩) :
      Quiet m p h o d ev (.done (.error (m.storeError e)))
  | generated (o₀ : Object) (d₀ : D) (cont : Uuid → Plan D Err α) (id : Uuid)
      (holds : p.Holds m h o₀ d₀ (.generate cont)) (answer : ev.answer = ⟨.nowV7,id⟩) :
      Quiet m p h o d ev ((cont id).program m o₀.version)
  | refused (o₀ : Object) (reply : Version → α) (b : Bytes) (r : ReplaceReply ε)
      (answer : ev.answer = ⟨.store (.replace m.location o₀.version b),r⟩)
      (unwritten : r.written = none) :
      Quiet m p h o d ev (.done (m.settle o₀.version reply r))

theorem Step.quiet (h : Run S.Env (launch S m procs s) tr c) (hs : Step S.Env c ev c')
    {o : Object} {d : D} (ho : S.objects c.world m.location = some o)
    (hd : m.decode o.bytes = .ok d) (hw : stores m.location ev = none) :
    Quiet m (procs ev.call) (Trace.of ev.call tr) o d ev (c'.calls ev.call) := by
  obtain ⟨next,hc,hc'⟩ := hs.caller
  have hstage := Run.stage h ev.call
  rw [hc] at hstage
  rw [hc']
  obtain ⟨i,e,r⟩ := ev
  match e,r,hw with
  | .nowMillis,now,hw =>
      obtain ⟨cont,hr,-,rfl⟩ := hstage.nowMillis_inv
      exact .clock cont now hr rfl
  | .nowV7,id,hw =>
      obtain ⟨o₀,d₀,cont,hh,rfl⟩ := hstage.nowV7_inv
      exact .generated o₀ d₀ cont id hh rfl
  | .store (.create l b),r,hw => exact (hstage.create_inv).elim
  | .store (.replace l x b),r,hw =>
      obtain ⟨rfl,o₀,d₀,d',reply,rfl,hh,hb,rfl⟩ := hstage.replace_inv
      refine .refused o₀ reply b r rfl ?_
      simpa [stores,Request.stores] using hw
  | .store (.get l),r,hw =>
      obtain ⟨rfl,plan,hr,-,rfl⟩ := hstage.get_inv
      rcases hs.world.atomic.got_inv with he | ⟨e,he⟩
      · rw [ho] at he
        subst he
        rw [Medium.resume_ok hd]
        exact .got plan hr rfl
      · subst he
        exact .getFailed e rfl

-- The invariant speaks of what the current object decodes to, so that a document that cannot be
-- read back is covered too: nothing commits on it.
theorem invariant_rule (Adm : Trace (Reply ε) → Prop)
    (Inv : Trace (Reply ε) → Config S.State (Reply ε) (Except Err α) → Except Err D → Prop)
    {o₀ : Object} (hadm : ∀ {tr ev}, Adm (tr ++ [ev]) → Adm tr)
    (hstart : S.objects s m.location = some o₀)
    (hinit : Inv [] (launch S m procs s) (m.decode o₀.bytes))
    (hquiet : ∀ {tr c ev c' o}, Run S.Env (launch S m procs s) tr c → Step S.Env c ev c' →
      Adm (tr ++ [ev]) → S.objects c.world m.location = some o →
      stores m.location ev = none → Inv tr c (m.decode o.bytes) →
      Inv (tr ++ [ev]) c' (m.decode o.bytes))
    (hcommit : ∀ {tr c ev c'} {o o' : Object} {d d' reply r}, Run S.Env (launch S m procs s) tr c →
      Step S.Env c ev c' → Adm (tr ++ [ev]) → m.decode o.bytes = .ok d →
      stores m.location ev = some o' →
      Committed m (procs ev.call) (Trace.of ev.call tr) ev d d' reply r →
      m.encode d' = .ok o'.bytes → r.written = some o'.version →
      c'.calls ev.call = .done (m.settle o.version reply r) → Inv tr c (.ok d) →
      Inv (tr ++ [ev]) c' (m.decode o'.bytes))
    (h : Run S.Env (launch S m procs s) tr c) (ha : Adm tr)
    (hcoh : Coherent (held (S.objects s m.location) m.location tr)) :
    ∃ o, S.objects c.world m.location = some o ∧ Inv tr c (m.decode o.bytes) := by
  induction h with
  | nil => exact ⟨o₀,hstart,hinit⟩
  | @snoc tr ev n c' hr hs ih =>
      obtain ⟨o,ho,hi⟩ := ih (hadm ha) hcoh.of_append
      have hnext := hs.world.objects_eq m.location
      cases hw : stores m.location ev with
      | none =>
          rw [hw,Option.none_or,ho] at hnext
          exact ⟨o,hnext,hquiet hr hs ha ho hw hi⟩
      | some o' =>
          rw [hw,Option.some_or] at hnext
          obtain ⟨o₁,d,d',reply,r,ho₁,hd,hc,he,hv,hcall⟩ := Step.committed hr hcoh.of_append hs hw
          obtain rfl : o = o₁ := Option.some.inj (ho.symm.trans ho₁)
          exact ⟨o',hnext,hcommit hr hs ha hd hw hc he hv hcall (hd ▸ hi)⟩

end System

end Objsds
