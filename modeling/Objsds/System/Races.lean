import Objsds.Store.Truthful
import Objsds.System.Access

namespace Objsds

open Foundation

variable {ε : Type}

section Attempts

variable {D Err α : Type} {m : Medium D Err ε} {p : Procedure D Err α}
  {h : List (Sigma (Reply ε))}

theorem Plan.no_get (plan : Plan D Err α) (m : Medium D Err ε) (expected : Version) :
    (plan.program m expected).Only (fun e => ∀ l, e ≠ .store (.get l)) := by
  induction plan with
  | respond result => trivial
  | generate next ih => exact ⟨by simp,ih⟩
  | commit d reply =>
      simp only [Plan.program]
      split
      · trivial
      · exact ⟨by simp,fun _ => trivial⟩

theorem Medium.resume_no_get (plan : D → Plan D Err α) (r : Except ε (Option Object)) :
    (m.resume plan r).Only (fun e => ∀ l, e ≠ .store (.get l)) := by
  unfold Medium.resume
  split
  · trivial
  · exact Plan.no_get _ m _

theorem Procedure.reads_once {q : Action ε (Except Err α)} {h₁ h₂ : List (Sigma (Reply ε))}
    {l : Location} {r : Except ε (Option Object)}
    (hf : (p.program m).Follows (h₁ ++ ⟨.store (.get l),r⟩ :: h₂) q) :
    ∀ y ∈ h₂, ∀ l', y.1 ≠ .store (.get l') := by
  induction p generalizing h₁ with
  | respond result => simp [Procedure.program] at hf
  | clock next ih =>
      rcases Program.follows_perform.mp hf with ⟨hnil,-⟩ | ⟨now,h',heq,hf'⟩
      · simp at hnil
      · cases h₁ with
        | nil => simp at heq
        | cons x h₁ =>
            rw [← (List.cons.inj heq).2] at hf'
            exact ih now hf'
  | transact plan =>
      rcases Program.follows_perform.mp hf with ⟨hnil,-⟩ | ⟨r',h',heq,hf'⟩
      · simp at hnil
      · have hno := (Medium.resume_no_get plan r').mem hf'
        cases h₁ with
        | nil =>
            rw [← (List.cons.inj heq).2] at hno
            exact hno
        | cons x h₁ =>
            rw [← (List.cons.inj heq).2] at hno
            exact absurd rfl (hno ⟨.store (.get l),r⟩ (by simp) l)

-- What a call that is about to write has done, and what it makes of the answer.
structure Attempt (l : Location) (x : Version) (h : List (Sigma (Reply ε)))
    (next : ReplaceReply ε → Action ε Ending) : Prop where
  read : ∃ h₁ o h₂, h = h₁ ++ ⟨.store (.get l),.ok (some o)⟩ :: h₂ ∧ o.version = x ∧
    ∀ y ∈ h₂, y.1.target = none
  replaced : ∀ v, next (.replaced v) = .done .succeeded
  conflict : ∀ observed, next (.conflict observed) = .done (.conflict x observed)

theorem attempt_of_follows {raced : Err → Option Race} (hc : m.Candid raced p) {l : Location}
    {x : Version} {b : Bytes} {next : ReplaceReply ε → Action ε Ending}
    (hf : (ending raced <$> p.program m).Follows h (.perform (.store (.replace l x b)) next)) :
    l = m.location ∧ Attempt l x h next := by
  obtain ⟨q,hq,hmap⟩ := Program.follows_map.mp hf
  obtain ⟨next',rfl,rfl⟩ := Program.map_eq_perform.mp hmap
  obtain ⟨rfl,o,d,d',reply,rfl,hh,-,rfl⟩ := (Procedure.stage_of_follows hq).replace_inv
  refine ⟨rfl,⟨?_,fun v => rfl,?_⟩⟩
  · obtain ⟨h₁,h₂,rfl⟩ := List.append_of_mem hh.got
    refine ⟨h₁,o,h₂,rfl,rfl,?_⟩
    intro y hy
    have hget := Procedure.reads_once hq y hy
    have hread := hh.reads y (by simp [hy])
    obtain ⟨e,r⟩ := y
    match e,r,hget,hread with
    | .store (.get l),_,hget,_ => exact absurd rfl (hget l)
    | .nowMillis,_,_,_ => rfl
    | .nowV7,_,_,_ => rfl
  · intro observed
    change ending raced <$> (.done (.error (m.conflict o.version observed)) : Action ε _) = _
    simp [map_eq_pure_bind,ending,hc.conflict]

theorem Access.attempt (access : Access) {l : Location} {x : Version} {b : Bytes}
    {next : ReplaceReply ε → Action ε Ending}
    (hf : access.program.Follows h (.perform (.store (.replace l x b)) next)) :
    l = access.location ∧ Attempt l x h next := by
  cases access with
  | map handle op =>
      simp only [program,Map.perform_eq] at hf
      exact attempt_of_follows (handle.candid op) hf
  | log handle op =>
      simp only [program,Log.perform_eq] at hf
      exact attempt_of_follows (handle.candid op) hf
  | queue handle op =>
      simp only [program,Queue.perform_eq] at hf
      exact attempt_of_follows (handle.candid op) hf

end Attempts

def Commits (l : Location) (ev : Event (Reply ε)) : Prop :=
  ∃ j x b v, ev = ⟨j,.store (.replace l x b),.replaced v⟩

def Attempts (l : Location) (x : Version) (ev : Event (Reply ε)) : Prop :=
  ∃ j b r, ev = ⟨j,.store (.replace l x b),r⟩

section Commits

variable {S : ObjectStore ε} {α : Type} {c c' : Config S.State (Reply ε) α}
  {tr : Trace (Reply ε)} {l : Location} {o : Object}

theorem Commits.stores {ev : Event (Reply ε)} (h : Commits l ev) : ∃ o, stores l ev = some o := by
  obtain ⟨j,x,b,v,rfl⟩ := h
  exact ⟨⟨b,v⟩,by simp [Objsds.stores,Request.stores,ReplaceReply.written]⟩

theorem commits_of_stores (hS : S.Truthful) {s s' : S.State} {ev : Event (Reply ε)}
    (h : S.Env s ev s') (hp : S.objects s l ≠ none) (hs : stores l ev = some o) :
    Commits l ev ∧ ∀ o₀, S.objects s l = some o₀ → Attempts l o₀.version ev := by
  obtain ⟨j,e,r⟩ := ev
  match e,r,hs with
  | .store (.create l' b),r,hs =>
      simp only [stores,Request.stores] at hs
      split at hs
      · subst l'
        obtain ⟨v,hv,-⟩ := Option.map_eq_some_iff.mp hs
        exact absurd (h.atomic.created_inv hv) hp
      · simp at hs
  | .store (.replace l' x b),r,hs =>
      simp only [stores,Request.stores] at hs
      split at hs
      · subst l'
        obtain ⟨v,hv,-⟩ := Option.map_eq_some_iff.mp hs
        rcases h.truthful hS with ⟨hx,w,rfl⟩ | ⟨-,rfl⟩
        · refine ⟨⟨j,x,b,w,rfl⟩,fun o₀ ho => ?_⟩
          rw [ho] at hx
          obtain rfl := Option.some.inj hx
          exact ⟨j,b,_,rfl⟩
        · simp [ReplaceReply.written] at hv
      · simp at hs

theorem committed (hS : S.Truthful) (h : Run S.Env c tr c') (hp : S.objects c.world l ≠ none)
    {ev : Event (Reply ε)} (hev : ev ∈ tr) (hs : stores l ev = some o) : Commits l ev := by
  obtain ⟨tr₁,tr₂,rfl⟩ := List.append_of_mem hev
  obtain ⟨m,m',hm,hstep,-⟩ := h.split
  exact (commits_of_stores hS hstep.world (Run.present hm hp) hs).1

end Commits

-- A replacement is refused just when another one came between it and the read it rests on, and
-- of all that expect one version the first is the one that succeeds.
structure RaceLaw (l : Location) (tr : Trace (Reply ε)) (racer : ℕ → Prop)
    (returned : ℕ → Ending → Prop) : Prop where
  attempt : ∀ tr₁ i x b r tr₂, tr = tr₁ ++ ⟨i,.store (.replace l x b),r⟩ :: tr₂ →
    ∃ before o between, tr₁ = before ++ ⟨i,.store (.get l),.ok (some o)⟩ :: between ∧
      o.version = x ∧ (∀ ev ∈ between, ev.call = i → ev.effect.target = none) ∧
      ((∃ observed, r = .conflict observed) ↔ ∃ ev ∈ between, ev.call ≠ i ∧ Commits l ev) ∧
      ((∃ v, r = .replaced v ∧ ∀ e, returned i e → e = .succeeded) ∨
        ∃ v, v ≠ x ∧ r = .conflict (some v) ∧ ∀ e, returned i e → e = .conflict x (some v))
  conflict : ∀ i x observed, racer i → returned i (.conflict x observed) →
    ∃ tr₁ b tr₂, tr = tr₁ ++ ⟨i,.store (.replace l x b),.conflict observed⟩ :: tr₂
  first : ∀ tr₁ i x b r tr₂, tr = tr₁ ++ ⟨i,.store (.replace l x b),r⟩ :: tr₂ →
    ((∃ v, r = .replaced v) ↔ ∀ ev ∈ tr₁, ¬ Attempts l x ev)

theorem RaceLaw.mono {l : Location} {tr : Trace (Reply ε)} {racer : ℕ → Prop}
    {returned returned' : ℕ → Ending → Prop} (h : RaceLaw l tr racer returned)
    (hle : ∀ i e, returned' i e → returned i e) : RaceLaw l tr racer returned' where
  attempt := by
    intro tr₁ i x b r tr₂ htr
    obtain ⟨before,o,between,hb,ho,hown,hiff,hend⟩ := h.attempt tr₁ i x b r tr₂ htr
    refine ⟨before,o,between,hb,ho,hown,hiff,?_⟩
    rcases hend with ⟨v,hr,he⟩ | ⟨v,hv,hr,he⟩
    · exact .inl ⟨v,hr,fun e hret => he e (hle i e hret)⟩
    · exact .inr ⟨v,hv,hr,fun e hret => he e (hle i e hret)⟩
  conflict := fun i x observed hi hret => h.conflict i x observed hi (hle i _ hret)
  first := h.first

section Law

variable {S : ObjectStore ε} {calls : ℕ → Action ε Ending} {s : S.State}
  {c' : Config S.State (Reply ε) Ending} {tr tr₁ tr₂ : Trace (Reply ε)} {l : Location} {i : ℕ}
  {x : Version} {b : Bytes} {r : ReplaceReply ε}

structure Attempted (S : ObjectStore ε) (calls : ℕ → Action ε Ending) (s : S.State) (l : Location)
    (i : ℕ) (x : Version) (b : Bytes) (r : ReplaceReply ε) (tr₁ : Trace (Reply ε))
    (c' : Config S.State (Reply ε) Ending) (before : Trace (Reply ε)) (o : Object)
    (between : Trace (Reply ε)) : Prop where
  split : tr₁ = before ++ ⟨i,.store (.get l),.ok (some o)⟩ :: between
  version : o.version = x
  own : ∀ ev ∈ between, ev.call = i → ev.effect.target = none
  held : o ∈ held (S.objects s l) l before
  reached : ∃ n m : Config S.State (Reply ε) Ending, S.objects n.world l = some o ∧
    Run S.Env n between m ∧ Run S.Env ⟨s,calls⟩ tr₁ m ∧ ∃ s', S.Env m.world
      ⟨i,.store (.replace l x b),r⟩ s'
  replaced : ∀ v, r = .replaced v → c'.calls i = .done .succeeded
  conflict : ∀ observed, r = .conflict observed → c'.calls i = .done (.conflict x observed)

variable {before between : Trace (Reply ε)} {o : Object}

theorem Attempted.held_eq (ha : Attempted S calls s l i x b r tr₁ c' before o between) :
    Objsds.held (S.objects s l) l tr₁ =
      Objsds.held (S.objects s l) l before ++ stored l between := by
  rw [ha.split,held_append]
  rfl

theorem Attempted.outcome (hS : S.Truthful)
    (ha : Attempted S calls s l i x b r tr₁ c' before o between)
    (hn : ((Objsds.held (S.objects s l) l tr₁).map Object.version).Nodup) :
    (stored l between = [] ∧ ∃ v, r = .replaced v) ∨
      (stored l between ≠ [] ∧ ∃ v, v ≠ x ∧ r = .conflict (some v)) := by
  obtain ⟨n,m,hobj,hmid,-,s',henv⟩ := ha.reached
  have hcur := Run.objects_eq hmid l
  rw [hobj] at hcur
  have htruth := henv.truthful hS
  rcases List.eq_nil_or_concat (stored l between) with hq | ⟨init,o',hq⟩
  · rw [Objsds.held,hq] at hcur
    rcases htruth with ⟨-,v,rfl⟩ | ⟨hne,-⟩
    · exact .inl ⟨hq,v,rfl⟩
    · rw [hcur] at hne
      exact absurd (congrArg some ha.version) hne
  · rw [List.concat_eq_append] at hq
    have hlast : S.objects m.world l = some o' := by
      rw [hcur,Objsds.held,hq,← List.append_assoc,List.getLast?_concat]
    have hv : o'.version ≠ x := by
      rw [ha.held_eq,List.map_append,List.nodup_append] at hn
      have hin : o.version ∈ (Objsds.held (S.objects s l) l before).map Object.version :=
        List.mem_map_of_mem ha.held
      have hin' : o'.version ∈ (stored l between).map Object.version :=
        List.mem_map_of_mem (by simp [hq])
      rw [← ha.version]
      exact (hn.2.2 _ hin _ hin').symm
    refine .inr ⟨by simp [hq],o'.version,hv,?_⟩
    rcases htruth with ⟨heq,-⟩ | ⟨-,rfl⟩
    · rw [hlast] at heq
      exact absurd (Option.some.inj heq) hv
    · rw [hlast]
      rfl

end Law

end Objsds
