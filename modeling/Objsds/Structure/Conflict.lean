import Objsds.Structure.Optimistic

namespace Objsds

open Foundation

variable {D Err ε α : Type}

def Plan.Responds (P : Except Err α → Prop) : Plan D Err α → Prop
  | .respond result => P result
  | .generate next => ∀ id, (next id).Responds P
  | .commit _ _ => True

def Procedure.Responds (P : Except Err α → Prop) : Procedure D Err α → Prop
  | .respond result => P result
  | .clock next => ∀ now, (next now).Responds P
  | .transact plan => ∀ d, (plan d).Responds P

theorem Plan.Responds.after {P : Except Err α → Prop} {plan plan' : Plan D Err α}
    {ids : List Uuid} (h : plan.Responds P) (ha : plan.after ids = some plan') :
    plan'.Responds P := by
  induction ids generalizing plan with
  | nil =>
      rw [Plan.after_nil,Option.some.injEq] at ha
      exact ha ▸ h
  | cons id ids ih =>
      cases plan with
      | respond result => simp at ha
      | commit d reply => simp at ha
      | generate next => exact ih (h id) ha

theorem Procedure.Responds.after {P : Except Err α → Prop} {p p' : Procedure D Err α}
    {nows : List UInt64} (h : p.Responds P) (ha : p.after nows = some p') : p'.Responds P := by
  induction nows generalizing p with
  | nil =>
      rw [Procedure.after_nil,Option.some.injEq] at ha
      exact ha ▸ h
  | cons now nows ih =>
      cases p with
      | respond result => simp at ha
      | transact plan => simp at ha
      | clock next => exact ih (h now) ha

-- No error but the one of a refused write is a conflict.
structure Medium.Candid (m : Medium D Err ε) (raced : Err → Option (Version × Option Version))
    (p : Procedure D Err α) : Prop where
  store : ∀ source, raced (m.storeError source) = none
  missing : raced m.notFound = none
  decode : ∀ b e, m.decode b = .error e → raced e = none
  encode : ∀ d e, m.encode d = .error e → raced e = none
  conflict : ∀ expected observed, raced (m.conflict expected observed) = some (expected,observed)
  responds : p.Responds (fun result => ∀ e, result = .error e → raced e = none)

theorem transact_commits {m : Medium D Err ε} {o : Object} {d d' : D} {b : Bytes}
    {plan : D → Plan D Err α} {reply : Version → α} (hd : m.decode o.bytes = .ok d)
    (hp : plan d = .commit d' reply) (hb : m.encode d' = .ok b) (r : ReplaceReply ε) :
    ((Procedure.transact plan).program m).Follows [⟨.store (.get m.location),.ok (some o)⟩,
      ⟨.store (.replace m.location o.version b),r⟩] (.done (m.settle o.version reply r)) := by
  refine .step ?_
  rw [Medium.resume_ok hd,hp]
  simp only [Plan.program,hb]
  exact .step (.refl _)

section Conflicts

variable {m : Medium D Err ε} {raced : Err → Option (Version × Option Version)}
  {p : Procedure D Err α} {h : List (Sigma (Reply ε))} {e : Err}

theorem Medium.Candid.snapshot (hc : m.Candid raced p) {r : Except ε (Option Object)}
    (hs : m.snapshot r = .error e) : raced e = none := by
  match r,hs with
  | .error source,hs => exact Except.error.inj hs ▸ hc.store source
  | .ok none,hs => exact Except.error.inj hs ▸ hc.missing
  | .ok (some o),hs =>
      cases hd : m.decode o.bytes with
      | error e' =>
          rw [Medium.snapshot,hd] at hs
          exact Except.error.inj hs ▸ hc.decode _ e' hd
      | ok d => simp [Medium.snapshot,hd,Except.map] at hs

theorem Medium.Candid.answered (hc : m.Candid raced p) {o : Object} {d : D}
    (hh : p.Holds m h o d (.respond (.error e))) : raced e = none := by
  obtain ⟨first,hf,ha⟩ := hh.planned
  have hfirst : (first d).Responds (fun result => ∀ e, result = .error e → raced e = none) :=
    hc.responds.after hf d
  exact hfirst.after ha e rfl

theorem Procedure.Finished.lostRace (hf : p.Finished m h (.error e)) (hc : m.Candid raced p)
    {expected : Version} {observed : Option Version} (he : raced e = some (expected,observed)) :
    ∃ h₀ o d d' reply b, p.Holds m h₀ o d (.commit d' reply) ∧ m.encode d' = .ok b ∧
      expected = o.version ∧
      h = h₀ ++ [⟨.store (.replace m.location o.version b),.conflict observed⟩] := by
  generalize hres : (Except.error e : Except Err α) = result at hf
  cases hf with
  | responded result hr =>
      have hnone : raced e = none := (hc.responds.after hr) e hres.symm
      simp [hnone] at he
  | missed r e' hg hb =>
      obtain rfl := Except.error.inj hres
      simp [hc.snapshot hb] at he
  | answered o d result hh =>
      subst hres
      simp [hc.answered hh] at he
  | unencodable o d d' reply e' hh hb =>
      obtain rfl := Except.error.inj hres
      simp [hc.encode d' e hb] at he
  | settled h₀ o d d' reply b r hh hb hw =>
      cases r with
      | replaced v => simp [Medium.settle,ReplaceReply.result] at hres
      | failed source | uncertain source v =>
          obtain rfl := Except.error.inj hres
          simp [hc.store source] at he
      | conflict found =>
          obtain rfl := Except.error.inj hres
          rw [hc.conflict,Option.some.injEq,Prod.mk.injEq] at he
          obtain ⟨rfl,rfl⟩ := he
          exact ⟨h₀,o,d,d',reply,b,hh,hb,rfl,hw⟩

end Conflicts

end Objsds
