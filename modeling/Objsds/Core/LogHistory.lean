import Objsds.Core.Log
import Objsds.Json.Compact
import Objsds.Structure.Uncontended

namespace Objsds

open Foundation

namespace Log

variable {ε V : Type}

section Documents

theorem insertRecord_spec {d : LogDocument V} (record : Record V)
    (hi : Increasing Record.id d.records) (hnew : ∀ r ∈ d.records, r.id ≠ record.id) :
    Increasing Record.id (insertRecord d record).records ∧
      (insertRecord d record).records.Perm (record :: d.records) := by
  cases hs : binarySearchByKey d.records record.id Record.id with
  | ok i =>
      obtain ⟨l,r,r',he,-,hk⟩ := binarySearchByKey_ok hi hs
      exact absurd hk (hnew r (by simp [he]))
  | error i =>
      obtain ⟨l,r,he,hl,hlt,hgt⟩ := binarySearchByKey_error hi hs
      have hrec : (insertRecord d record).records = l ++ record :: r := by
        simp only [insertRecord,hs]
        rw [he,← hl]
        exact insertIdx_length_append l r record
      rw [he] at hi
      refine ⟨hrec ▸ hi.insert_between hlt hgt,?_⟩
      rw [hrec,he]
      exact List.perm_middle

theorem lookup_eq {d : LogDocument V} (hi : Increasing Record.id d.records) (id : LogId) :
    lookup d id = d.records.find? (fun r => r.id = id) := by
  unfold lookup
  cases hs : binarySearchByKey d.records id Record.id with
  | ok i =>
      obtain ⟨l,r,r',he,rfl,hk⟩ := binarySearchByKey_ok hi hs
      have hne : ∀ a ∈ l, a.id ≠ id := by
        intro a ha
        rw [he] at hi
        exact hk ▸ ne_of_lt ((List.pairwise_append.mp hi).2.2 a ha r (by simp))
      have hf : l.find? (fun r => decide (r.id = id)) = none := by
        refine List.find?_eq_none.mpr (fun a ha => ?_)
        simpa using hne a ha
      simp [he,hf,hk]
  | error i =>
      obtain ⟨l,r,he,-,hlt,hgt⟩ := binarySearchByKey_error hi hs
      refine (List.find?_eq_none.mpr ?_).symm
      intro a ha
      rw [he] at ha
      rcases List.mem_append.mp ha with ha | ha
      · simpa using ne_of_lt (hlt a ha)
      · simpa using ne_of_gt (hgt a ha)

theorem after_eq {d : LogDocument V} (hi : Increasing Record.id d.records) (id : LogId) :
    after d id = d.records.filter (fun r => id < r.id) := by
  have hp : d.records.Pairwise
      (fun a b => decide (b.id ≤ id) = true → decide (a.id ≤ id) = true) := by
    refine hi.imp ?_
    intro a b hab hb
    simp only [decide_eq_true_eq] at hb ⊢
    exact le_trans (le_of_lt hab) hb
  obtain ⟨l,r,he,hl,hle,hgt⟩ := partitionPoint_spec hp
  have hfl : l.filter (fun r => decide (id < r.id)) = [] :=
    List.filter_eq_nil_iff.mpr (fun a ha => by simpa using hle a ha)
  have hfr : r.filter (fun r => decide (id < r.id)) = r :=
    List.filter_eq_self.mpr (fun a ha => by simpa using hgt a ha)
  rw [after,← hl,he,List.drop_left,List.filter_append,hfl,hfr,List.nil_append]

end Documents

def committed (l : Location) (ops : ℕ → Op V) (past : Trace (Reply ε)) (ev : Event (Reply ε)) :
    Option (Record V) :=
  match ops ev.call, stores l ev with
  | .append value, some _ => (identifiers (Trace.of ev.call past)).head?.map (⟨·,value⟩)
  | _, _ => none

def appends (l : Location) (ops : ℕ → Op V) (tr : Trace (Reply ε)) : List (Record V) :=
  Trace.collect (committed l ops) [] tr

theorem commit_inv {op : Op V} {nows : List UInt64} {ids : List Uuid} {d d' : LogDocument V}
    {reply : Version → Outcome V}
    (h : ∃ first, (procedure (ε := ε) op).after nows = some (.transact first) ∧
      (first d).after ids = some (.commit d' reply)) :
    ∃ value id, op = .append value ∧ ids = [id] ∧ d' = insertRecord d ⟨id,value⟩ ∧
      reply = fun _ => .appended id := by
  obtain ⟨first,hf,hp⟩ := h
  cases op with
  | append value =>
      obtain rfl := Procedure.transact.inj (Procedure.after_transact.mp hf).2
      rcases Plan.after_generate.mp hp with ⟨-,hc⟩ | ⟨id,rest,rfl,hc⟩
      · simp at hc
      · obtain ⟨rfl,hc'⟩ := Plan.after_commit.mp hc
        obtain ⟨rfl,rfl⟩ := Plan.commit.inj hc'
        exact ⟨value,id,rfl,rfl,rfl,rfl⟩
  | get id | records | recordsAfter id =>
      obtain rfl := Procedure.transact.inj (Procedure.after_transact.mp hf).2
      simp at hp

theorem keeps {log : Log V} (hrt : log.codec.RoundTrips 3) (op : Op V) :
    (log.medium (ε := ε)).Keeps (fun d => d.records.map Record.id) (procedure op) := by
  intro nows ids d d' reply b₀ b hd hp hnew hb
  obtain ⟨value,id,-,rfl,rfl,-⟩ := commit_inv hp
  obtain ⟨-,hhead,hinc⟩ := decode_eq_ok.mp hd
  have hfresh : ∀ r ∈ d.records, r.id ≠ id := fun r hr he =>
    hnew id (by simp) (List.mem_map.mpr ⟨r,hr,he⟩)
  obtain ⟨hinc',hperm⟩ := insertRecord_spec ⟨id,value⟩ hinc hfresh
  obtain ⟨b',hb',hdec⟩ := encode_roundTrip (ε := ε) (d := insertRecord d ⟨id,value⟩) hrt hhead hinc'
  obtain rfl : b = b' := Except.ok.inj (hb.symm.trans hb')
  refine ⟨_,hdec,fun k hk => ?_⟩
  have hmem := (hperm.map Record.id).mem_iff.mp hk
  rcases List.mem_cons.mp hmem with rfl | h
  · exact .inr (List.mem_singleton_self _)
  · exact .inl h

section Runs

variable {S : ObjectStore ε} {log : Log V} {ops : ℕ → Op V} {s : S.State}
  {tr : Trace (Reply ε)} {c : Config S.State (Reply ε) (Except (Error ε) (Outcome V))}

theorem appends_fresh {tr : Trace (Reply ε)} (hfresh : (issued tr).Nodup) {i : ℕ} {id : Uuid}
    (hid : id ∈ identifiers (Trace.of i tr)) (hreads : ∀ x ∈ Trace.of i tr, isRead x = true)
    {r : Record V} (hr : r ∈ appends log.location ops tr) : r.id ≠ id := by
  rintro rfl
  obtain ⟨tr₁,ev,tr₂,rfl,hc⟩ := Trace.mem_collect.mp hr
  unfold committed at hc
  split at hc
  · rename_i value o _ hw
    obtain ⟨id,hh,rfl⟩ := Option.map_eq_some_iff.mp hc
    exact identifier_fresh hfresh hreads hw (List.mem_of_head? hh) hid
  · simp at hc

theorem appends_quiet {ev : Event (Reply ε)} (hw : stores log.location ev = none) :
    appends log.location ops (tr ++ [ev]) = appends log.location ops tr := by
  have hc : committed log.location ops tr ev = none := by
    unfold committed
    rw [hw]
    split <;> simp_all
  rw [appends,Trace.collect_snoc,hc]
  simp [appends]

theorem appends_commit {ev : Event (Reply ε)} {o : Object} {value : V} {id : LogId}
    (hw : stores log.location ev = some o) (hop : ops ev.call = .append value)
    (hid : identifiers (Trace.of ev.call tr) = [id]) :
    appends log.location ops (tr ++ [ev]) = appends log.location ops tr ++ [⟨id,value⟩] := by
  have hc : committed log.location ops tr ev = some ⟨id,value⟩ := by
    simp [committed,hw,hop,hid]
  rw [appends,Trace.collect_snoc,hc]
  rfl

structure History (log : Log V) (S : ObjectStore ε) (ops : ℕ → Op V) (s : S.State)
    (tr : Trace (Reply ε)) (c : Config S.State (Reply ε) (Except (Error ε) (Outcome V))) :
    Prop where
  created : ∃ o, S.objects s log.location = some o ∧ log.emptyBytes (ε := ε) = .ok o.bytes
  run : Run S.Env ⟨s,fun i => log.perform (ops i)⟩ tr c
  fresh : (issued tr).Nodup
  coherent : Coherent (held (S.objects s log.location) log.location tr)

structure Snapshot (log : Log V) (S : ObjectStore ε) (s : S.State) (records : List (Record V)) :
    Prop where
  stored : ∃ o d, S.objects s log.location = some o ∧ log.decode (ε := ε) o.bytes = .ok d ∧
    d.records = records

theorem launch_eq (log : Log V) (S : ObjectStore ε) (ops : ℕ → Op V) (s : S.State) :
    (⟨s,fun i => log.perform (ops i)⟩ : Config S.State (Reply ε) _) =
      launch S log.medium (fun i => procedure (ops i)) s := by
  simp only [launch,perform_eq]

theorem commit_step (hrt : log.codec.RoundTrips 3) (hfresh : (issued tr).Nodup)
    {ev : Event (Reply ε)} {o o' : Object} {d d' : LogDocument V} {reply : Version → Outcome V}
    {r : ReplaceReply ε} (hd : log.decode (ε := ε) o.bytes = .ok d)
    (hw : stores log.location ev = some o')
    (hc : Committed log.medium (procedure (ops ev.call)) (Trace.of ev.call tr) ev d d' reply r)
    (he : log.encode (ε := ε) d' = .ok o'.bytes)
    (hp : d.records.Perm (appends log.location ops tr)) :
    log.decode (ε := ε) o'.bytes = .ok d' ∧
      d'.records.Perm (appends log.location ops (tr ++ [ev])) := by
  obtain ⟨o₁,hh,b,hb,-⟩ := hc.holds
  obtain ⟨value,id,hop,hids,rfl,rfl⟩ := commit_inv hh.planned
  obtain ⟨-,hhead,hinc⟩ := decode_eq_ok.mp hd
  have hnew : ∀ r ∈ d.records, r.id ≠ id := fun r hr =>
    appends_fresh hfresh (by rw [hids]; simp) hh.reads (hp.mem_iff.mp hr)
  obtain ⟨hinc',hperm⟩ := insertRecord_spec ⟨id,value⟩ hinc hnew
  obtain ⟨b',hb',hdec⟩ := encode_roundTrip (ε := ε) (d := insertRecord d ⟨id,value⟩) hrt hhead hinc'
  obtain rfl : o'.bytes = b' := Except.ok.inj (he.symm.trans hb')
  refine ⟨hdec,?_⟩
  rw [appends_commit hw hop hids]
  exact (hperm.trans (hp.cons _)).trans (List.perm_append_singleton _ _).symm

theorem History.snapshot (hrt : log.codec.RoundTrips 3) (h : History log S ops s tr c) :
    ∃ records, Snapshot log S c.world records ∧ Increasing Record.id records ∧
      records.Perm (appends log.location ops tr) := by
  obtain ⟨o₀,ho₀,he₀⟩ := h.created
  have hrun := h.run
  rw [launch_eq] at hrun
  obtain ⟨b,hb,hd₀⟩ := encode_roundTrip (ε := ε) (d := ⟨⟨Core.FORMAT_VERSION,"log",log.schema⟩,[]⟩)
    hrt rfl .nil
  obtain rfl : b = o₀.bytes := Except.ok.inj (hb.symm.trans he₀)
  obtain ⟨o,ho,d,hd,hp⟩ := invariant_rule (fun tr => (issued tr).Nodup)
    (fun tr _ r => ∃ d, r = .ok d ∧ d.records.Perm (appends log.location ops tr))
    (fun ha => issued_nodup_of_append ha) ho₀ ⟨_,hd₀,.nil⟩
    (fun _ _ _ _ hw ⟨d,hd,hp⟩ => ⟨d,hd,(appends_quiet hw).symm ▸ hp⟩)
    (fun _ _ ha hd hw hc he _ _ ⟨_,hd',hp⟩ =>
      ⟨_,commit_step hrt (issued_nodup_of_append ha) hd hw hc he (Except.ok.inj hd' ▸ hp)⟩)
    hrun h.fresh h.coherent
  exact ⟨d.records,⟨o,d,ho,hd,rfl⟩,(decode_eq_ok.mp hd).2.2,hp⟩

theorem History.restrict {tr₁ tr₂ : Trace (Reply ε)} (h : History log S ops s (tr₁ ++ tr₂) c)
    {c₁ : Config S.State (Reply ε) (Except (Error ε) (Outcome V))}
    (hr : Run S.Env ⟨s,fun i => log.perform (ops i)⟩ tr₁ c₁) : History log S ops s tr₁ c₁ :=
  ⟨h.created,hr,issued_nodup_of_append h.fresh,h.coherent.of_append⟩

theorem Snapshot.unique {w : S.State} {xs ys : List (Record V)} (hx : Snapshot log S w xs)
    (hy : Snapshot log S w ys) : xs = ys := by
  obtain ⟨o,d,ho,hd,rfl⟩ := hx.stored
  obtain ⟨o',d',ho',hd',rfl⟩ := hy.stored
  obtain rfl : o = o' := Option.some.inj (ho.symm.trans ho')
  rw [Except.ok.inj (hd.symm.trans hd')]

theorem appends_sublist (tr₁ tr₂ : Trace (Reply ε)) :
    (appends log.location ops tr₁).Sublist (appends log.location ops (tr₁ ++ tr₂)) := by
  rw [appends,appends,Trace.collect_append]
  exact List.sublist_append_left _ _

def Reports (appended : List (Record V)) (snapshot : List (Record V)) :
    Op V → Outcome V → Prop
  | .append value, .appended id => ⟨id,value⟩ ∈ appended
  | .get id, .record found => found = snapshot.find? (fun r => r.id = id)
  | .records, .records all => all = snapshot
  | .recordsAfter id, .records all => all = snapshot.filter (fun r => id < r.id)
  | _, _ => False

theorem History.holds_snapshot (h : History log S ops s tr c) {i : ℕ} {o : Object}
    {d : LogDocument V} (hg : ⟨.store (.get log.location),.ok (some o)⟩ ∈ Trace.of i tr)
    (hd : log.decode (ε := ε) o.bytes = .ok d) :
    ∃ tr₁ tr₂ c₁, tr = tr₁ ++ ⟨i,.store (.get log.location),.ok (some o)⟩ :: tr₂ ∧
      Run S.Env ⟨s,fun i => log.perform (ops i)⟩ tr₁ c₁ ∧ Snapshot log S c₁.world d.records := by
  obtain ⟨tr₁,tr₂,c₁,htr,hr,ho | ⟨e,he⟩⟩ := Run.got h.run hg
  · exact ⟨tr₁,tr₂,c₁,htr,hr,⟨o,d,(Except.ok.inj ho).symm,hd,rfl⟩⟩
  · simp at he

theorem respond_inv {op : Op V} {nows : List UInt64} {ids : List Uuid} {d : LogDocument V}
    {result : Except (Error ε) (Outcome V)} (hi : Increasing Record.id d.records)
    (h : ∃ first, (procedure (ε := ε) op).after nows = some (.transact first) ∧
      (first d).after ids = some (.respond result)) :
    ∃ outcome, result = .ok outcome ∧ ∀ appended, Reports appended d.records op outcome := by
  obtain ⟨first,hf,hp⟩ := h
  cases op with
  | append value =>
      obtain rfl := Procedure.transact.inj (Procedure.after_transact.mp hf).2
      rcases Plan.after_generate.mp hp with ⟨-,hc⟩ | ⟨id,rest,rfl,hc⟩ <;> simp at hc
  | get id =>
      obtain rfl := Procedure.transact.inj (Procedure.after_transact.mp hf).2
      obtain rfl := Plan.respond.inj (Plan.after_respond.mp hp).2
      exact ⟨_,rfl,fun _ => lookup_eq hi id⟩
  | records =>
      obtain rfl := Procedure.transact.inj (Procedure.after_transact.mp hf).2
      obtain rfl := Plan.respond.inj (Plan.after_respond.mp hp).2
      exact ⟨_,rfl,fun _ => rfl⟩
  | recordsAfter id =>
      obtain rfl := Procedure.transact.inj (Procedure.after_transact.mp hf).2
      obtain rfl := Plan.respond.inj (Plan.after_respond.mp hp).2
      exact ⟨_,rfl,fun _ => after_eq hi id⟩

theorem not_responded {op : Op V} {nows : List UInt64} {result : Except (Error ε) (Outcome V)} :
    (procedure (ε := ε) op).after nows ≠ some (.respond result) := by
  cases op <;> simp [procedure]

theorem History.reports (h : History log S ops s tr c) {i : ℕ} {outcome : Outcome V}
    (hd : c.calls i = .done (.ok outcome)) :
    ∃ o tr₁ tr₂ c₁ records, tr = tr₁ ++ ⟨i,.store (.get log.location),.ok (some o)⟩ :: tr₂ ∧
      Run S.Env ⟨s,fun i => log.perform (ops i)⟩ tr₁ c₁ ∧ Snapshot log S c₁.world records ∧
      Reports (appends log.location ops tr) records (ops i) outcome := by
  have hrun := h.run
  rw [launch_eq] at hrun
  have hf := Run.finished hrun hd
  generalize hres : (Except.ok outcome : Except (Error ε) (Outcome V)) = result at hf
  cases hf with
  | responded result hr => exact absurd hr not_responded
  | missed => simp at hres
  | unencodable => simp at hres
  | answered o d result hh =>
      obtain ⟨tr₁,tr₂,c₁,htr,hr,hsnap⟩ := h.holds_snapshot hh.got hh.decoded
      obtain ⟨out,rfl,hrep⟩ := respond_inv (decode_eq_ok.mp hh.decoded).2.2 hh.planned
      obtain rfl := Except.ok.inj hres
      exact ⟨o,tr₁,tr₂,c₁,d.records,htr,hr,hsnap,hrep _⟩
  | settled h₀ o d d' reply b r hh hb hw =>
      have hgot := List.mem_append_left [⟨.store (.replace log.location o.version b),r⟩] hh.got
      obtain ⟨tr₁,tr₂,c₁,htr,hr,hsnap⟩ := h.holds_snapshot (hw ▸ hgot) hh.decoded
      refine ⟨o,tr₁,tr₂,c₁,d.records,htr,hr,hsnap,?_⟩
      obtain ⟨value,id,hop,hids,-,rfl⟩ := commit_inv hh.planned
      cases r with
      | conflict observed => simp [Medium.settle,ReplaceReply.result] at hres
      | failed source => simp [Medium.settle,ReplaceReply.result] at hres
      | uncertain source v => simp [Medium.settle,ReplaceReply.result] at hres
      | replaced v =>
          obtain rfl := Except.ok.inj hres
          obtain ⟨tr₃,ev,tr₄,rfl,rfl,ha,hof⟩ := Trace.of_snoc_inv hw
          rw [hop]
          refine Trace.mem_collect.mpr ⟨tr₃,ev,tr₄,rfl,?_⟩
          have hst : stores log.location ev = some ⟨b,v⟩ := stores_replace ha
          simp [committed,hop,hst,hof,hids]

theorem History.errors (hrt : log.codec.RoundTrips 3) (h : History log S ops s tr c) {i : ℕ}
    {e : Error ε} (hd : c.calls i = .done (.error e)) :
    (∃ source, e = .store source) ∨ ∃ expected observed, e = .conflict expected observed := by
  have hrun := h.run
  rw [launch_eq] at hrun
  have henc : ∀ d, ∃ b, log.encode (ε := ε) d = .ok b := fun d => by
    obtain ⟨j,hj,-⟩ := LogDocument.serialize_roundTrip log.serde d (fun r _ => hrt r.value)
    exact ⟨_,by rw [encode,hj]; rfl⟩
  have hread : ∀ tr₁ tr₂ c₁, tr = tr₁ ++ tr₂ →
      Run S.Env (launch S log.medium (fun i => procedure (ops i)) s) tr₁ c₁ →
      ∃ o d, S.objects c₁.world log.location = some o ∧ log.decode (ε := ε) o.bytes = .ok d := by
    rintro tr₁ tr₂ c₁ rfl hr
    rw [← launch_eq] at hr
    obtain ⟨records,hsnap,-⟩ := (h.restrict hr).snapshot hrt
    obtain ⟨o,d,ho,hdec,-⟩ := hsnap.stored
    exact ⟨o,d,ho,hdec⟩
  obtain ⟨source,he,-⟩ | hc | ⟨o,d,hh⟩ | hr := Run.error_inv hrun hread henc hd
  · exact .inl ⟨source,he⟩
  · exact .inr hc
  · obtain ⟨outcome,ho,-⟩ := respond_inv (decode_eq_ok.mp hh.decoded).2.2 hh.planned
    simp at ho
  · exact absurd hr not_responded

end Runs

theorem log_append_only (S : ObjectStore ε) (log : Log V) (ops : ℕ → Op V) (s : S.State)
    (tr : Trace (Reply ε)) (c : Config S.State (Reply ε) (Except (Error ε) (Outcome V)))
    (hrt : log.codec.RoundTrips 3) (h : History log S ops s tr c) :
    (∀ tr₁ tr₂ c₁, tr = tr₁ ++ tr₂ → Run S.Env ⟨s,fun i => log.perform (ops i)⟩ tr₁ c₁ →
      ∃ records, Snapshot log S c₁.world records ∧ Increasing Record.id records ∧
        records.Perm (appends log.location ops tr₁)) ∧
    (∀ tr₁ tr₂ tr₃ c₁ c₂ xs ys, tr = tr₁ ++ tr₂ ++ tr₃ →
      Run S.Env ⟨s,fun i => log.perform (ops i)⟩ tr₁ c₁ →
      Run S.Env ⟨s,fun i => log.perform (ops i)⟩ (tr₁ ++ tr₂) c₂ →
      Snapshot log S c₁.world xs → Snapshot log S c₂.world ys → xs.Sublist ys) ∧
    (∀ i outcome, c.calls i = .done (.ok outcome) →
      ∃ o tr₁ tr₂ c₁ records, tr = tr₁ ++ ⟨i,.store (.get log.location),.ok (some o)⟩ :: tr₂ ∧
        Run S.Env ⟨s,fun i => log.perform (ops i)⟩ tr₁ c₁ ∧ Snapshot log S c₁.world records ∧
        Reports (appends log.location ops tr) records (ops i) outcome) ∧
    (∀ i e, c.calls i = .done (.error e) →
      (∃ source, e = .store source) ∨ ∃ expected observed, e = .conflict expected observed) ∧
    ∀ (S' : ObjectStore ε) (ops' : ℕ → Op V) (s' : S'.State) tr' c' xs ys,
      History log S' ops' s' tr' c' →
      (∀ r, r ∈ appends log.location ops tr ↔ r ∈ appends log.location ops' tr') →
      Snapshot log S c.world xs → Snapshot log S' c'.world ys → xs = ys := by
  refine ⟨?_,?_,fun i outcome hd => h.reports hd,fun i e hd => h.errors hrt hd,?_⟩
  · rintro tr₁ tr₂ c₁ rfl hr
    exact (h.restrict hr).snapshot hrt
  · rintro tr₁ tr₂ tr₃ c₁ c₂ xs ys rfl h₁ h₂ hx hy
    obtain ⟨ys',hys,hincy,hpermy⟩ := (h.restrict h₂).snapshot hrt
    obtain rfl := hys.unique hy
    rw [List.append_assoc] at h
    obtain ⟨xs',hxs,hincx,hpermx⟩ := (h.restrict h₁).snapshot hrt
    obtain rfl := hxs.unique hx
    refine hincx.sublist_of_subset hincy (fun r hr => ?_)
    exact hpermy.mem_iff.mpr ((appends_sublist tr₁ tr₂).subset (hpermx.mem_iff.mp hr))
  · intro S' ops' s' tr' c' xs ys h' hsame hx hy
    obtain ⟨xs',hxs,hincx,hpermx⟩ := h.snapshot hrt
    obtain ⟨ys',hys,hincy,hpermy⟩ := h'.snapshot hrt
    obtain rfl := hxs.unique hx
    obtain rfl := hys.unique hy
    refine hincx.eq_of_mem_iff hincy (fun r => ?_)
    rw [hpermx.mem_iff,hpermy.mem_iff,hsame]

def audit : Log String := ⟨⟨"shop/logs/audit.json",by decide⟩,"v1",textCodec,compact⟩

def appendThenRead : ℕ → Op String
  | 0 => .append "a"
  | 1 => .append "b"
  | _ => .records

-- The second append is given the lower identifier.
theorem appendThenRead_append_only :
    ∃ (s : Memory.State) (tr : Trace (Reply Empty))
      (c : Config Memory.State (Reply Empty) (Except (Error Empty) (Outcome String))),
      History audit Memory.store appendThenRead s tr c ∧
        c.calls 2 = .done (.ok (.records [⟨4,"b"⟩,⟨5,"a"⟩])) ∧
        Snapshot audit Memory.store c.world [⟨4,"b"⟩,⟨5,"a"⟩] ∧
        ([⟨4,"b"⟩,⟨5,"a"⟩] : List (Record String)).Perm
          (appends audit.location appendThenRead tr) := by
  have hrt : audit.codec.RoundTrips 3 := textCodec_roundTrips (by decide)
  have hdoc : ∀ records : List (Record String), Increasing Record.id records →
      ∃ b, audit.encode (ε := Empty) ⟨⟨Core.FORMAT_VERSION,"log","v1"⟩,records⟩ = .ok b ∧
        audit.decode (ε := Empty) b = .ok ⟨⟨Core.FORMAT_VERSION,"log","v1"⟩,records⟩ :=
    fun records hi => encode_readsBack (fun r _ => hrt r.value) rfl hi
  have hinc : Increasing Record.id ([⟨4,"b"⟩,⟨5,"a"⟩] : List (Record String)) := by
    simp only [Increasing,List.pairwise_cons,List.mem_singleton]
    refine ⟨?_,by simp,.nil⟩
    rintro r rfl
    decide
  obtain ⟨b₀,hb₀,hd₀⟩ := hdoc [] .nil
  obtain ⟨b₁,hb₁,hd₁⟩ := hdoc [⟨5,"a"⟩] (List.pairwise_singleton ..)
  obtain ⟨b₂,hb₂,hd₂⟩ := hdoc _ hinc
  let s₀ := stocked audit.location b₀
  let s₁ := replaced s₀ audit.location b₁
  have ho₀ := stocked_objects audit.location b₀
  have ho₁ := replaced_objects s₀ audit.location b₁
  have ho₂ := replaced_objects s₁ audit.location b₂
  have ha : Solo Memory.store.Env 0 s₀ ((procedure (.append "a")).program audit.medium) _ _ _ :=
    memory_transact ho₀ hd₀ (memory_generate 5 (memory_commit ho₀ hb₁))
  have hb : Solo Memory.store.Env 1 s₁ ((procedure (.append "b")).program audit.medium) _ _ _ :=
    memory_transact ho₁ hd₁ (memory_generate 4 (memory_commit ho₁ hb₂))
  have hread : Solo Memory.store.Env 2 (replaced s₁ audit.location b₂)
      ((procedure .records).program audit.medium) _ _ _ :=
    memory_transact ho₂ hd₂ .done
  rw [← perform_eq] at ha hb hread
  obtain ⟨c₁,hr₁,hw₁,-,hj₁⟩ := ha.run
    (c := ⟨s₀,fun i => audit.perform (appendThenRead i)⟩) rfl rfl
  obtain ⟨c₂,hr₂,hw₂,-,hj₂⟩ := Solo.after hr₁ hb hw₁ (hj₁ 1 (by decide))
  obtain ⟨c,hr,hw,hdone,-⟩ := Solo.after hr₂ hread hw₂
    ((hj₂ 2 (by decide)).trans (hj₁ 2 (by decide)))
  have hcoh := stocked_coherent hr
    (by simp [writes,Solo.events,mutation,Event.answer,ReplaceReply.written])
  have hh : History audit Memory.store appendThenRead s₀ _ c :=
    ⟨⟨_,ho₀,hb₀⟩,hr,(by decide : ([5,4] : List Uuid).Nodup),hcoh⟩
  have hsnap : Snapshot audit Memory.store c.world [⟨4,"b"⟩,⟨5,"a"⟩] := by
    rw [hw]
    exact ⟨_,_,ho₂,hd₂,rfl⟩
  obtain ⟨records,hsnap',-,hperm⟩ := (log_append_only Memory.store audit appendThenRead _ _ c
    hrt hh).1 _ [] c (by simp) hr
  obtain rfl := hsnap'.unique hsnap
  exact ⟨_,_,c,hh,hdone,hsnap,hperm⟩

end Log

end Objsds
