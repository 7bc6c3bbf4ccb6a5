import Objsds.Core.Map
import Objsds.Foundation.Linearization
import Objsds.Json.Compact
import Objsds.Structure.Uncontended

namespace Objsds

open Foundation

namespace Map

variable {ε V : Type}

inductive Observation (V : Type) where
  | value (found : Option V)
  | entries (all : List (String × V))
  | inserted
  | occupied (value : V)
  | removed (value : Option V)

def Outcome.observe : Outcome V → Observation V
  | .value found => .value found
  | .entries all => .entries all
  | .version _ => .inserted
  | .insertIfAbsent (.inserted _) => .inserted
  | .insertIfAbsent (.occupied found) => .occupied found
  | .removed old => .removed old

def spec (m : SortedMap String V) : Op V → SortedMap String V × Observation V
  | .get key => (m,.value (m.get? key))
  | .entries => (m,.entries m.entries)
  | .insert key value => (m.insert key value,.inserted)
  | .insertIfAbsent key value =>
      match m.get? key with
      | some found => (m,.occupied found)
      | none => (m.insert key value,.inserted)
  | .remove key => (m.erase key,.removed (m.get? key))

inductive Simulates (op : Op V) (d : OwnedMapDocument V) :
    Plan (OwnedMapDocument V) (Error ε) (Outcome V) → Prop
  | respond (o : Outcome V) (same : spec d.entries op = (d.entries,o.observe)) :
      Simulates op d (.respond (.ok o))
  | commit (reply : Version → Outcome V)
      (same : ∀ version, (reply version).observe = (spec d.entries op).2) :
      Simulates op d (.commit { d with entries := (spec d.entries op).1 } reply)

theorem procedure_simulates (op : Op V) :
    ∃ plan : OwnedMapDocument V → Plan (OwnedMapDocument V) (Error ε) (Outcome V),
      procedure op = .transact plan ∧ ∀ d, Simulates op d (plan d) := by
  cases op with
  | get key => exact ⟨_,rfl,fun d => .respond _ rfl⟩
  | entries => exact ⟨_,rfl,fun d => .respond _ rfl⟩
  | insert key value => exact ⟨_,rfl,fun d => .commit _ (fun _ => rfl)⟩
  | insertIfAbsent key value =>
      refine ⟨_,rfl,fun d => ?_⟩
      cases hk : d.entries.get? key with
      | some found => exact .respond _ (by simp [spec,hk,Outcome.observe])
      | none =>
          have hs : (spec d.entries (.insertIfAbsent key value)) =
              (d.entries.insert key value,.inserted) := by
            simp [spec,hk]
          have hc : Simulates (ε := ε) (.insertIfAbsent key value) d _ :=
            .commit (fun version => .insertIfAbsent (.inserted version)) (fun _ => by rw [hs]; rfl)
          rw [hs] at hc
          simpa [SortedMap.erase_of_get?_eq_none hk] using hc
  | remove key =>
      refine ⟨_,rfl,fun d => ?_⟩
      cases hk : d.entries.get? key with
      | some found =>
          exact .commit (fun _ => .removed (some found)) (fun _ => by simp [spec,hk,Outcome.observe])
      | none =>
          refine .respond _ ?_
          simp [spec,hk,Outcome.observe,SortedMap.erase_of_get?_eq_none hk]

def storeStep (e : Effect) : Prop := ∃ q, e = .store q

def answer : Action ε (Except (Error ε) (Outcome V)) → Option (Observation V)
  | .done (.ok o) => some o.observe
  | _ => none

section Runs

variable {S : ObjectStore ε} {map : Map V} {ops : ℕ → Op V} {s : S.State} {o₀ : Object}
  {d₀ : OwnedMapDocument V} {tr : Trace (Reply ε)}
  {c c' : Config S.State (Reply ε) (Except (Error ε) (Outcome V))} {ev : Event (Reply ε)}

structure Tracks (map : Map V) (ops : ℕ → Op V) (o₀ : Object) (d₀ : OwnedMapDocument V)
    (tr : Trace (Reply ε)) (c : Config S.State (Reply ε) (Except (Error ε) (Outcome V)))
    (d : OwnedMapDocument V) (points : List (ℕ × ℕ)) : Prop where
  header : d.toHeader = ⟨Core.FORMAT_VERSION,"map",map.schema⟩
  linear : Linearization spec d₀.entries ops storeStep tr (fun i => answer (c.calls i)) points
  current : (replay spec d₀.entries (points.map (fun p => ops p.2))).1 = d.entries
  passed : ∀ n ≤ tr.length, ∃ o e, (held (some o₀) map.location (tr.take n)).getLast? = some o ∧
    map.decode (ε := ε) o.bytes = .ok e ∧ e.entries = stateBefore spec d₀.entries ops points n

theorem Simulates.after_inv {op : Op V} {d : OwnedMapDocument V}
    {nows : List UInt64} {ids : List Uuid}
    {plan : Plan (OwnedMapDocument V) (Error ε) (Outcome V)}
    (hr : ∃ first, (procedure op).after nows = some (.transact first) ∧
      (first d).after ids = some plan) : Simulates op d plan := by
  obtain ⟨first,hf,ha⟩ := hr
  obtain ⟨plan₀,hop,hsim⟩ := procedure_simulates (ε := ε) op
  rw [hop,Procedure.after_transact] at hf
  obtain rfl := Procedure.transact.inj hf.2
  have hd := hsim d
  generalize first d = q at ha hd
  cases hd with
  | respond o hs =>
      obtain rfl := (Plan.after_respond.mp ha).2
      exact .respond o hs
  | commit reply hs =>
      obtain rfl := (Plan.after_commit.mp ha).2
      exact .commit reply hs

theorem keeps {map : Map V} (hrt : map.codec.RoundTrips 2) (op : Op V) :
    (map.medium (ε := ε)).Keeps (fun _ => []) (procedure op) := by
  intro nows ids d d' reply b₀ b hd hp hnew hb
  have hhead := (decode_eq_ok.mp hd).2
  generalize hq : Plan.commit d' reply = plan at hp
  cases Simulates.after_inv hp with
  | respond o hs => simp at hq
  | commit reply' hs =>
      obtain ⟨rfl,-⟩ := Plan.commit.inj hq
      exact ⟨_,decode_of_encode hrt hb hhead,by simp⟩

theorem Tracks.passed_snoc {d : OwnedMapDocument V} {points points' : List (ℕ × ℕ)}
    (h : Tracks map ops o₀ d₀ tr c d points)
    (hb : ∀ n ≤ tr.length, stateBefore spec d₀.entries ops points' n =
      stateBefore spec d₀.entries ops points n)
    (hlast : ∃ o e, (held (some o₀) map.location (tr ++ [ev])).getLast? = some o ∧
      map.decode (ε := ε) o.bytes = .ok e ∧
      e.entries = stateBefore spec d₀.entries ops points' (tr.length + 1)) :
    ∀ n ≤ (tr ++ [ev]).length, ∃ o e,
      (held (some o₀) map.location ((tr ++ [ev]).take n)).getLast? = some o ∧
      map.decode (ε := ε) o.bytes = .ok e ∧
      e.entries = stateBefore spec d₀.entries ops points' n := by
  intro n hn
  rw [List.length_append,List.length_singleton] at hn
  rcases Nat.lt_or_ge tr.length n with hlt | hle
  · obtain rfl : n = tr.length + 1 := by omega
    rw [List.take_of_length_le (by simp)]
    exact hlast
  · rw [List.take_append_of_le_length hle,hb n hle]
    exact h.passed n hle

theorem answer_caller (hs : Step S.Env c ev c') : answer (c.calls ev.call) = none := by
  obtain ⟨next,hc,-⟩ := hs.caller
  rw [hc]
  rfl

theorem Tracks.last {d : OwnedMapDocument V} {points : List (ℕ × ℕ)}
    (h : Tracks map ops o₀ d₀ tr c d points) (hw : stores map.location ev = none) :
    ∃ o e, (held (some o₀) map.location (tr ++ [ev])).getLast? = some o ∧
      map.decode (ε := ε) o.bytes = .ok e ∧ e.entries = d.entries := by
  obtain ⟨o,e,ho,he,hd⟩ := h.passed tr.length le_rfl
  rw [List.take_length] at ho
  refine ⟨o,e,?_,he,?_⟩
  · simpa [held_snoc,hw] using ho
  · rw [hd,h.linear.stateBefore_length le_rfl,h.current]

theorem Tracks.skip {d : OwnedMapDocument V} {points : List (ℕ × ℕ)}
    (h : Tracks map ops o₀ d₀ tr c d points) (hs : Step S.Env c ev c')
    (hw : stores map.location ev = none) (hnone : answer (c'.calls ev.call) = none) :
    Tracks map ops o₀ d₀ (tr ++ [ev]) c' d points := by
  have hout : (fun i => answer (c'.calls i)) = fun i => answer (c.calls i) := by
    funext i
    by_cases hi : ev.call = i
    · subst hi
      rw [hnone,answer_caller hs]
    · rw [hs.others hi]
  refine ⟨h.header,h.linear.skip hout,h.current,h.passed_snoc (fun n _ => rfl) ?_⟩
  obtain ⟨o,e,ho,he,hd⟩ := h.last hw
  exact ⟨o,e,ho,he,by rw [hd,h.linear.stateBefore_length (by omega),h.current]⟩

theorem Tracks.extend {d d' : OwnedMapDocument V} {points : List (ℕ × ℕ)}
    {obs : Observation V}
    (h : Tracks map ops o₀ d₀ tr c d points) (hs : Step S.Env c ev c')
    (hstep : storeStep ev.effect) (hh : d'.toHeader = d.toHeader)
    (hspec : spec d.entries (ops ev.call) = (d'.entries,obs))
    (hobs : answer (c'.calls ev.call) = some obs)
    (hlast : ∃ o e, (held (some o₀) map.location (tr ++ [ev])).getLast? = some o ∧
      map.decode (ε := ε) o.bytes = .ok e ∧ e.entries = d'.entries) :
    Tracks map ops o₀ d₀ (tr ++ [ev]) c' d' (points ++ [(tr.length,ev.call)]) := by
  have hlin : Linearization spec d₀.entries ops storeStep (tr ++ [ev])
      (fun i => answer (c'.calls i)) (points ++ [(tr.length,ev.call)]) := by
    refine h.linear.extend hstep (answer_caller hs) ?_ (fun i hi => by rw [hs.others (Ne.symm hi)])
    rw [h.current,hspec]
    exact hobs
  have hcur : (replay spec d₀.entries
      ((points ++ [(tr.length,ev.call)]).map (fun p => ops p.2))).1 = d'.entries := by
    rw [List.map_append,List.map_singleton,replay_snoc,h.current,hspec]
  refine ⟨hh.trans h.header,hlin,hcur,
    h.passed_snoc (fun n hn => Linearization.stateBefore_snoc _ _ hn) ?_⟩
  obtain ⟨o,e,ho,he,hd⟩ := hlast
  exact ⟨o,e,ho,he,by rw [hd,hlin.stateBefore_length (by simp),hcur]⟩

theorem answer_commit {d : OwnedMapDocument V} {reply : Version → Outcome V}
    {version : Version} :
    answer ((Plan.commit d reply : Plan _ (Error ε) _).program map.medium version) = none := by
  simp only [Plan.program]
  split <;> rfl

theorem answer_unwritten {reply : Version → Outcome V} {version : Version} {r : ReplaceReply ε}
    (hr : r.written = none) :
    answer (.done (map.medium.settle version reply r) : Action ε _) = none := by
  cases r with
  | replaced v => simp [ReplaceReply.written] at hr
  | conflict observed => rfl
  | failed e => rfl
  | uncertain e v => simp [ReplaceReply.written] at hr

theorem answer_written {reply : Version → Outcome V} {obs : Observation V} {version v : Version}
    {r : ReplaceReply ε} (hr : r.written = some v) (hf : ∀ e, r.result ≠ .error (.store e))
    (hobs : ∀ version, (reply version).observe = obs) :
    answer (.done (map.medium.settle version reply r) : Action ε _) = some obs := by
  cases r with
  | replaced v => exact congrArg some (hobs v)
  | conflict observed => simp [ReplaceReply.written] at hr
  | failed e => exact absurd rfl (hf e)
  | uncertain e v => exact absurd rfl (hf e)

theorem Tracks.quiet {d : OwnedMapDocument V} {o : Object} {points : List (ℕ × ℕ)}
    (h : Tracks map ops o₀ d₀ tr c d points)
    (hr : Run S.Env (launch S map.medium (fun i => procedure (ops i)) s) tr c)
    (hs : Step S.Env c ev c') (ho : S.objects c.world map.location = some o)
    (hd : map.decode (ε := ε) o.bytes = .ok d) (hw : stores map.location ev = none) :
    ∃ points', Tracks map ops o₀ d₀ (tr ++ [ev]) c' d points' := by
  have hq := Step.quiet hr hs ho hd hw
  generalize hn : c'.calls ev.call = next at hq
  cases hq with
  | clock cont now hreach =>
      obtain ⟨plan,hop,-⟩ := procedure_simulates (ε := ε) (ops ev.call)
      simp [hop] at hreach
  | got plan hreach hans =>
      have hsim := Simulates.after_inv ⟨plan,hreach,Plan.after_nil (plan d)⟩
      generalize plan d = q at hsim hn
      cases hsim with
      | respond outcome hspec =>
          have hstep : storeStep ev.effect := ⟨_,congrArg Sigma.fst hans⟩
          exact ⟨_,h.extend hs hstep rfl hspec (by rw [hn]; rfl) (h.last hw)⟩
      | commit reply hspec => exact ⟨points,h.skip hs hw (by rw [hn]; exact answer_commit)⟩
  | getFailed e => exact ⟨points,h.skip hs hw (by rw [hn]; rfl)⟩
  | generated o₁ d₁ cont id hh =>
      have hsim := Simulates.after_inv hh.planned
      cases hsim
  | refused o₁ reply b r hans hu =>
      exact ⟨points,h.skip hs hw (by rw [hn]; exact answer_unwritten hu)⟩

theorem Tracks.commit {d d' : OwnedMapDocument V} {o o' : Object} {points : List (ℕ × ℕ)}
    {reply : Version → Outcome V} {r : ReplaceReply ε} (hrt : map.codec.RoundTrips 2)
    (h : Tracks map ops o₀ d₀ tr c d points) (hs : Step S.Env c ev c')
    (hok : ¬ storeFailed ev.answer) (hw : stores map.location ev = some o')
    (hc : Committed map.medium (procedure (ops ev.call)) (Trace.of ev.call tr) ev d d' reply r)
    (he : map.encode (ε := ε) d' = .ok o'.bytes) (hv : r.written = some o'.version)
    (hcall : c'.calls ev.call = .done (map.medium.settle o.version reply r)) :
    map.decode (ε := ε) o'.bytes = .ok d' ∧
      ∃ points', Tracks map ops o₀ d₀ (tr ++ [ev]) c' d' points' := by
  obtain ⟨o₁,hh,b,hb,hans⟩ := hc.holds
  have hsim := Simulates.after_inv hh.planned
  cases hsim with
  | commit reply hspec =>
      have hdec := decode_of_encode hrt he h.header
      refine ⟨hdec,_,h.extend hs ⟨_,congrArg Sigma.fst hans⟩ rfl rfl ?_ ⟨o',_,?_,hdec,rfl⟩⟩
      · rw [hcall]
        refine answer_written hv ?_ hspec
        intro e hre
        rw [hans] at hok
        exact hok ⟨e,hre⟩
      · simp [held_snoc,hw]

theorem tracks_run (hrt : map.codec.RoundTrips 2)
    (hstart : S.objects s map.location = some o₀) (hd₀ : map.decode (ε := ε) o₀.bytes = .ok d₀)
    (h : Run S.Env (launch S map.medium (fun i => procedure (ops i)) s) tr c)
    (hcoh : Coherent (held (some o₀) map.location tr)) (hok : ∀ ev ∈ tr, ¬ storeFailed ev.answer) :
    ∃ d points, Tracks map ops o₀ d₀ tr c d points := by
  have hinit : Tracks map ops o₀ d₀ [] (launch S map.medium (fun i => procedure (ops i)) s)
      d₀ [] := by
    refine ⟨(decode_eq_ok.mp hd₀).2,.empty ?_,rfl,?_⟩
    · intro i
      obtain ⟨plan,hop,-⟩ := procedure_simulates (ε := ε) (ops i)
      simp [launch,hop,Procedure.program,answer]
    · intro n hn
      exact ⟨o₀,d₀,by simp [held],hd₀,rfl⟩
  obtain ⟨o,-,d,-,points,ht⟩ := invariant_rule
    (fun tr => ∀ ev ∈ tr, ¬ storeFailed ev.answer)
    (fun tr c r => ∃ d, r = .ok d ∧ ∃ points, Tracks map ops o₀ d₀ tr c d points)
    (fun ha ev hev => ha ev (List.mem_append_left _ hev)) hstart ⟨d₀,hd₀,[],hinit⟩
    (by
      rintro tr c ev c' o hr hs - ho hw ⟨d,hd,_,ht⟩
      exact ⟨d,hd,ht.quiet hr hs ho hd hw⟩)
    (by
      rintro tr c ev c' o o' d d' reply r - hs ha - hw hc he hv hcall ⟨_,hd,_,ht⟩
      exact ⟨_,Tracks.commit hrt (Except.ok.inj hd ▸ ht) hs (ha _ (by simp)) hw hc he hv hcall⟩)
    h hok (hstart ▸ hcoh)
  exact ⟨d,points,ht⟩

theorem finished_error {i : ℕ} {e : Error ε} (hrt : map.codec.RoundTrips 2)
    (h : Run S.Env (launch S map.medium (fun i => procedure (ops i)) s) tr c)
    (hread : ∀ tr₁ tr₂ c₁, tr = tr₁ ++ tr₂ →
      Run S.Env (launch S map.medium (fun i => procedure (ops i)) s) tr₁ c₁ →
      ∃ o d, S.objects c₁.world map.location = some o ∧ map.decode (ε := ε) o.bytes = .ok d)
    (hok : ∀ ev ∈ tr, ¬ storeFailed ev.answer) (hd : c.calls i = .done (.error e)) :
    ∃ expected observed, e = .conflict expected observed := by
  have henc : ∀ d, ∃ b, map.encode (ε := ε) d = .ok b := fun d => by
    obtain ⟨j,hj,-⟩ := serializeEntries_roundTrip (by decide) d.entries (fun p _ => hrt p.2)
    exact ⟨_,by rw [encode,OwnedMapDocument.serialize,hj]; rfl⟩
  obtain ⟨source,-,x,hx,hfail⟩ | hc | ⟨o,d,hh⟩ | hr := Run.error_inv h hread henc hd
  · exact absurd hfail (of_not_storeFailed hok hx)
  · exact hc
  · have hsim := Simulates.after_inv hh.planned
    cases hsim
  · obtain ⟨plan,hop,-⟩ := procedure_simulates (ε := ε) (ops i)
    simp [hop] at hr

theorem Tracks.at_prefix {d : OwnedMapDocument V} {points : List (ℕ × ℕ)}
    (h : Tracks map ops o₀ d₀ tr c d points) (hstart : S.objects s map.location = some o₀)
    {tr₁ tr₂ : Trace (Reply ε)} (htr : tr = tr₁ ++ tr₂)
    {c₁ : Config S.State (Reply ε) (Except (Error ε) (Outcome V))}
    (hr : Run S.Env (launch S map.medium (fun i => procedure (ops i)) s) tr₁ c₁) :
    ∃ o d, S.objects c₁.world map.location = some o ∧ map.decode (ε := ε) o.bytes = .ok d ∧
      d.entries = stateBefore spec d₀.entries ops points tr₁.length := by
  obtain ⟨o,e,ho,he,hd⟩ := h.passed tr₁.length (by simp [htr])
  have hobj := Run.objects_eq hr map.location
  rw [launch,hstart] at hobj
  refine ⟨o,e,?_,he,hd⟩
  rw [hobj,← ho,htr,List.take_left]

end Runs

theorem map_linearizable (S : ObjectStore ε) (map : Map V) (ops : ℕ → Op V) (s : S.State)
    (o₀ : Object) (d₀ : OwnedMapDocument V) (tr : Trace (Reply ε))
    (c : Config S.State (Reply ε) (Except (Error ε) (Outcome V)))
    (hrt : map.codec.RoundTrips 2)
    (hstart : S.objects s map.location = some o₀)
    (hread : map.decode (ε := ε) o₀.bytes = .ok d₀)
    (hrun : Run S.Env ⟨s,fun i => map.perform (ops i)⟩ tr c)
    (hcoh : Coherent (held (some o₀) map.location tr))
    (hok : ∀ ev ∈ tr, ¬ storeFailed ev.answer) :
    ∃ points,
      Linearization spec d₀.entries ops storeStep tr (fun i => answer (c.calls i)) points ∧
      (∀ tr₁ tr₂ c₁, tr = tr₁ ++ tr₂ → Run S.Env ⟨s,fun i => map.perform (ops i)⟩ tr₁ c₁ →
        ∃ o d, S.objects c₁.world map.location = some o ∧
          map.decode (ε := ε) o.bytes = .ok d ∧
          d.entries = stateBefore spec d₀.entries ops points tr₁.length) ∧
      ∀ i e, c.calls i = .done (.error e) →
        (∃ expected observed, e = .conflict expected observed) ∧
          ∀ ev ∈ tr, ev.call = i → mutation ev.answer = none := by
  have hl : (⟨s,fun i => map.perform (ops i)⟩ : Config S.State (Reply ε) _) =
      launch S map.medium (fun i => procedure (ops i)) s := by
    simp only [launch,perform_eq]
  rw [hl] at hrun
  simp only [hl]
  obtain ⟨d,points,ht⟩ := tracks_run hrt hstart hread hrun hcoh hok
  refine ⟨points,ht.linear,fun tr₁ tr₂ c₁ htr hr => ht.at_prefix hstart htr hr,?_⟩
  intro i e hd
  obtain ⟨x,y,rfl⟩ := finished_error hrt hrun (fun tr₁ tr₂ c₁ htr hr => by
    obtain ⟨o,d,ho,he,-⟩ := ht.at_prefix hstart htr hr
    exact ⟨o,d,ho,he⟩) hok hd
  refine ⟨⟨x,y,rfl⟩,?_⟩
  intro ev hev hi
  exact (Run.finished hrun hd).silent (fun source he => by simp [medium] at he) _
    (Trace.mem_of.mpr ⟨ev,hev,hi,rfl⟩)

def orders : Map String := ⟨⟨"shop/maps/orders.json",by decide⟩,"v1",textCodec,compact⟩

def insertThenGet (i : ℕ) : Op String := if i = 0 then .insert "a" "1" else .get "a"

theorem insertThenGet_linearizable :
    ∃ (s : Memory.State) (tr : Trace (Reply Empty))
      (c : Config Memory.State (Reply Empty) (Except (Error Empty) (Outcome String))) (points : _),
      Run Memory.store.Env ⟨s,fun i => orders.perform (insertThenGet i)⟩ tr c ∧
        c.calls 1 = .done (.ok (.value (some "1"))) ∧
        Linearization spec .empty insertThenGet storeStep tr (fun i => answer (c.calls i)) points := by
  let d : OwnedMapDocument String := ⟨⟨Core.FORMAT_VERSION,"map","v1"⟩,.empty⟩
  have hrt : orders.codec.RoundTrips 2 := textCodec_roundTrips (by decide)
  obtain ⟨b₀,-,hd⟩ : ∃ b, orders.encode (ε := Empty) d = .ok b ∧ orders.decode (ε := Empty) b = .ok d :=
    encode_readsBack (by simp [d]) rfl
  obtain ⟨b,hb,hd'⟩ : ∃ b, orders.encode (ε := Empty) { d with entries := d.entries.insert "a" "1" } =
      .ok b ∧ orders.decode (ε := Empty) b = .ok { d with entries := d.entries.insert "a" "1" } :=
    encode_readsBack (fun p _ => hrt p.2) rfl
  have ho := stocked_objects orders.location b₀
  have hinsert : Solo Memory.store.Env 0 (stocked orders.location b₀)
      ((procedure (.insert "a" "1")).program orders.medium) _ _ _ :=
    memory_transact ho hd (memory_commit ho hb)
  have hget : Solo Memory.store.Env 1 (replaced (stocked orders.location b₀) orders.location b)
      ((procedure (.get "a")).program orders.medium) _ _ _ :=
    memory_transact (replaced_objects ..) hd' .done
  rw [← perform_eq] at hinsert hget
  obtain ⟨c₁,hr₁,hw₁,-,hj₁⟩ := hinsert.run
    (c := ⟨stocked orders.location b₀,fun i => orders.perform (insertThenGet i)⟩) rfl rfl
  obtain ⟨c,hr,-,ha,-⟩ := Solo.after hr₁ hget hw₁ (hj₁ 1 (by decide))
  have hcoh := stocked_coherent hr
    (by simp [writes,Solo.events,mutation,Event.answer,ReplaceReply.written])
  rw [ho] at hcoh
  obtain ⟨points,hlin,-⟩ := map_linearizable Memory.store orders insertThenGet
    (stocked orders.location b₀) _ d _ _ hrt ho hd hr hcoh
    (by simp [Solo.events,storeFailed,Event.answer,ReplaceReply.result])
  exact ⟨_,_,c,points,hr,ha,hlin⟩

end Map

end Objsds
