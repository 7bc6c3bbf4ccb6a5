import Objsds.Core.MapLinearizable

namespace Objsds

open Foundation

namespace Map

section Runs

variable {ε V : Type} {S : ObjectStore ε} {map : Map V} {ops : ℕ → Op V} {s : S.State}
  {o₀ : Object} {d d₀ : OwnedMapDocument V} {tr : Trace (Reply ε)}
  {c c' : Config S.State (Reply ε) (Except (Error ε) (Outcome V))} {ev : Event (Reply ε)}
  {out : ℕ → Option (Observation V)} {points : List (ℕ × ℕ)}

structure Accounts (map : Map V) (ops : ℕ → Op V) (d₀ : OwnedMapDocument V) (tr : Trace (Reply ε))
    (c : Config S.State (Reply ε) (Except (Error ε) (Outcome V))) (d : OwnedMapDocument V)
    (out : ℕ → Option (Observation V)) (points : List (ℕ × ℕ)) : Prop where
  header : d.toHeader = ⟨Core.FORMAT_VERSION,"map",map.schema⟩
  linear : Linearization spec d₀.entries ops storeStep tr out points
  current : (replay spec d₀.entries (points.map (fun p => ops p.2))).1 = d.entries
  told : ∀ i o, answer (c.calls i) = some o → out i = some o
  cause : ∀ i o, out i = some o →
    answer (c.calls i) = some o ∨ ∃ source, c.calls i = .done (.error (.store source))

theorem Accounts.pending (h : Accounts map ops d₀ tr c d out points) (hs : Step S.Env c ev c') :
    out ev.call = none := by
  obtain ⟨next,hc,-⟩ := hs.caller
  cases ho : out ev.call with
  | none => rfl
  | some o =>
      rcases h.cause ev.call o ho with ha | ⟨source,hd⟩
      · simp [hc,answer] at ha
      · simp [hc] at hd

theorem Accounts.skip (h : Accounts map ops d₀ tr c d out points) (hs : Step S.Env c ev c')
    (hnone : answer (c'.calls ev.call) = none) :
    Accounts map ops d₀ (tr ++ [ev]) c' d out points := by
  refine ⟨h.header,h.linear.skip rfl,h.current,fun i o ha => ?_,fun i o ho => ?_⟩
  · by_cases hi : ev.call = i
    · simp [← hi,hnone] at ha
    · exact h.told i o (hs.others hi ▸ ha)
  · by_cases hi : ev.call = i
    · simp [← hi,h.pending hs] at ho
    · rw [hs.others hi]
      exact h.cause i o ho

theorem Accounts.extend {d' : OwnedMapDocument V} {obs : Observation V}
    (h : Accounts map ops d₀ tr c d out points) (hs : Step S.Env c ev c')
    (hstep : storeStep ev.effect) (hh : d'.toHeader = d.toHeader)
    (hspec : spec d.entries (ops ev.call) = (d'.entries,obs))
    (hobs : answer (c'.calls ev.call) = some obs ∨
      ∃ source, c'.calls ev.call = .done (.error (.store source))) :
    Accounts map ops d₀ (tr ++ [ev]) c' d' (Function.update out ev.call (some obs))
      (points ++ [(tr.length,ev.call)]) := by
  refine ⟨hh.trans h.header,h.linear.extend hstep (h.pending hs) ?_
    (fun i hi => Function.update_of_ne hi ..),?_,fun i o ha => ?_,fun i o ho => ?_⟩
  · rw [h.current,hspec,Function.update_self]
  · rw [List.map_append,List.map_singleton,replay_snoc,h.current,hspec]
  · by_cases hi : ev.call = i
    · subst hi
      rw [Function.update_self]
      rcases hobs with hobs | ⟨source,hobs⟩
      · exact hobs.symm.trans ha
      · simp [hobs,answer] at ha
    · rw [Function.update_of_ne (Ne.symm hi)]
      exact h.told i o (hs.others hi ▸ ha)
  · by_cases hi : ev.call = i
    · subst hi
      rw [Function.update_self] at ho
      rwa [← Option.some.inj ho]
    · rw [Function.update_of_ne (Ne.symm hi)] at ho
      rw [hs.others hi]
      exact h.cause i o ho

theorem Accounts.quiet {o : Object} (h : Accounts map ops d₀ tr c d out points)
    (hr : Run S.Env (launch S map.medium (fun i => procedure (ops i)) s) tr c)
    (hs : Step S.Env c ev c') (ho : S.objects c.world map.location = some o)
    (hd : map.decode (ε := ε) o.bytes = .ok d) (hw : stores map.location ev = none) :
    ∃ out' points', Accounts map ops d₀ (tr ++ [ev]) c' d out' points' := by
  have hq := Step.quiet hr hs ho hd hw
  generalize hn : c'.calls ev.call = next at hq
  cases hq with
  | clock cont now hreach =>
      obtain ⟨plan,hop,-⟩ := procedure_simulates (ε := ε) (ops ev.call)
      simp [hop] at hreach
  | got plan hreach hans =>
      have hsim := Simulates.after_inv ⟨plan,hreach,Plan.after_nil (plan d)⟩
      generalize plan d = q at hsim hn
      cases hsim with
      | respond outcome hspec =>
          have hstep : storeStep ev.effect := ⟨_,congrArg Sigma.fst hans⟩
          exact ⟨_,_,h.extend hs hstep rfl hspec (.inl (by rw [hn]; rfl))⟩
      | commit reply hspec => exact ⟨out,points,h.skip hs (by rw [hn]; exact answer_commit)⟩
  | getFailed e => exact ⟨out,points,h.skip hs (by rw [hn]; rfl)⟩
  | generated o₁ d₁ cont id hh =>
      have hsim := Simulates.after_inv hh.planned
      cases hsim
  | refused o₁ reply b r hans hu =>
      exact ⟨out,points,h.skip hs (by rw [hn]; exact answer_unwritten hu)⟩

theorem settle_written {reply : Version → Outcome V} {obs : Observation V} {version v : Version}
    {r : ReplaceReply ε} (hr : r.written = some v) (hobs : ∀ version, (reply version).observe = obs) :
    answer (.done (map.medium.settle version reply r) : Action ε _) = some obs ∨
      ∃ source, (.done (map.medium.settle version reply r) : Action ε _) =
        .done (.error (.store source)) := by
  cases r with
  | replaced v => exact .inl (congrArg some (hobs v))
  | uncertain e v => exact .inr ⟨e,rfl⟩
  | conflict | failed => simp [ReplaceReply.written] at hr

theorem Accounts.commit {d' : OwnedMapDocument V} {o o' : Object} {reply : Version → Outcome V}
    {r : ReplaceReply ε} (hrt : map.codec.RoundTrips 2)
    (h : Accounts map ops d₀ tr c d out points) (hs : Step S.Env c ev c')
    (hc : Committed map.medium (procedure (ops ev.call)) (Trace.of ev.call tr) ev d d' reply r)
    (he : map.encode (ε := ε) d' = .ok o'.bytes) (hv : r.written = some o'.version)
    (hcall : c'.calls ev.call = .done (map.medium.settle o.version reply r)) :
    map.decode (ε := ε) o'.bytes = .ok d' ∧
      ∃ out' points', Accounts map ops d₀ (tr ++ [ev]) c' d' out' points' := by
  obtain ⟨o₁,hh,b,hb,hans⟩ := hc.holds
  have hsim := Simulates.after_inv hh.planned
  cases hsim with
  | commit reply hspec =>
      have hdec := decode_of_encode hrt he h.header
      refine ⟨hdec,_,_,h.extend hs ⟨_,congrArg Sigma.fst hans⟩ rfl rfl ?_⟩
      rw [hcall]
      exact settle_written hv hspec

theorem accounts_run (hrt : map.codec.RoundTrips 2)
    (hstart : S.objects s map.location = some o₀) (hd₀ : map.decode (ε := ε) o₀.bytes = .ok d₀)
    (h : Run S.Env (launch S map.medium (fun i => procedure (ops i)) s) tr c)
    (hcoh : Coherent (held (S.objects s map.location) map.location tr)) :
    ∃ o d out points, S.objects c.world map.location = some o ∧
      map.decode (ε := ε) o.bytes = .ok d ∧ Accounts map ops d₀ tr c d out points := by
  have hnone : ∀ i, answer ((procedure (ops i)).program (map.medium (ε := ε))) = none := by
    intro i
    obtain ⟨plan,hop,-⟩ := procedure_simulates (ε := ε) (ops i)
    rw [hop]
    rfl
  have hinit : Accounts map ops d₀ [] (launch S map.medium (fun i => procedure (ops i)) s)
      d₀ (fun _ => none) [] := by
    refine ⟨(decode_eq_ok.mp hd₀).2,.empty (fun _ => rfl),rfl,fun i o ha => ?_,fun i o ho => ?_⟩
    · simp [launch,hnone i] at ha
    · simp at ho
  obtain ⟨o,ho,d,hd,out,points,ha⟩ := invariant_rule (fun _ => True)
    (fun tr c r => ∃ d, r = .ok d ∧ ∃ out points, Accounts map ops d₀ tr c d out points)
    (fun _ => trivial) hstart ⟨d₀,hd₀,_,[],hinit⟩
    (by
      rintro tr c ev c' o hr hs - ho hw ⟨d,hd,_,_,ha⟩
      exact ⟨d,hd,ha.quiet hr hs ho hd hw⟩)
    (by
      rintro tr c ev c' o o' d d' reply r - hs - - - hc he hv hcall ⟨_,hd,_,_,ha⟩
      exact ⟨_,Accounts.commit hrt (Except.ok.inj hd ▸ ha) hs hc he hv hcall⟩)
    h trivial hcoh
  exact ⟨o,d,out,points,ho,hd,ha⟩

end Runs

end Map

end Objsds
