import Objsds.Core.LogHistory
import Objsds.Core.MapLinearizable
import Objsds.System.Calls

namespace Objsds

open Foundation

variable {ε : Type}

inductive Kind where
  | map
  | log
  | queue
deriving DecidableEq

def Kind.text : Kind → String
  | .map => "map"
  | .log => "log"
  | .queue => Queue.KIND

def Kind.levels : Kind → ℕ
  | .map => 2
  | .log => 3
  | .queue => 3

theorem Kind.text_inj {k k' : Kind} (h : k.text = k'.text) : k = k' := by
  revert h
  cases k <;> cases k' <;> simp [text,Queue.KIND]

abbrev Slot := Kind × String

structure Site where
  location : Location
  V : Kind → String → Type
  codec : (k : Kind) → (schema : String) → Codec (V k schema)
  serde : Serde
  roundTrips : ∀ k schema, (codec k schema).RoundTrips k.levels

namespace Site

def map (site : Site) (schema : String) : Map (site.V .map schema) :=
  ⟨site.location,schema,site.codec .map schema,site.serde⟩

def log (site : Site) (schema : String) : Log (site.V .log schema) :=
  ⟨site.location,schema,site.codec .log schema,site.serde⟩

def queue (site : Site) (schema : String) : Queue (site.V .queue schema) :=
  ⟨site.location,schema,site.codec .queue schema,site.serde⟩

inductive Caller (site : Site) where
  | map (schema : String) (op : Map.Op (site.V .map schema))
  | log (schema : String) (op : Log.Op (site.V .log schema))
  | queue (schema : String) (op : Queue.Op (site.V .queue schema))
  | mapLifecycle (schema : String) (builder : MapBuilder (site.V .map schema))
      (built : builder.finish = .ok (site.map schema)) (step : Lifecycle)
  | logLifecycle (schema : String) (builder : LogBuilder (site.V .log schema))
      (built : builder.finish = .ok (site.log schema)) (step : Lifecycle)
  | queueLifecycle (schema : String) (builder : QueueBuilder (site.V .queue schema))
      (built : builder.finish = .ok (site.queue schema)) (step : Lifecycle)

namespace Caller

variable {site : Site}

def call : site.Caller → Call
  | .map schema op => .map (site.map schema) op
  | .log schema op => .log (site.log schema) op
  | .queue schema op => .queue (site.queue schema) op
  | .mapLifecycle _ builder _ step => .mapLifecycle builder step
  | .logLifecycle _ builder _ step => .logLifecycle builder step
  | .queueLifecycle _ builder _ step => .queueLifecycle builder step

def slot : site.Caller → Slot
  | .map schema _ => (.map,schema)
  | .log schema _ => (.log,schema)
  | .queue schema _ => (.queue,schema)
  | .mapLifecycle schema _ _ _ => (.map,schema)
  | .logLifecycle schema _ _ _ => (.log,schema)
  | .queueLifecycle schema _ _ _ => (.queue,schema)

def step : site.Caller → Option Lifecycle
  | .map _ _ => none
  | .log _ _ => none
  | .queue _ _ => none
  | .mapLifecycle _ _ _ step => some step
  | .logLifecycle _ _ _ step => some step
  | .queueLifecycle _ _ _ step => some step

end Caller

def Holds (ε : Type) (site : Site) : Slot → Bytes → List Uuid → Prop
  | (.map,schema), b, ids => ∃ d, (site.map schema).decode (ε := ε) b = .ok d ∧ [] = ids
  | (.log,schema), b, ids =>
      ∃ d, (site.log schema).decode (ε := ε) b = .ok d ∧ d.records.map Record.id = ids
  | (.queue,schema), b, ids =>
      ∃ d, (site.queue schema).decode (ε := ε) b = .ok d ∧ d.messages.map Message.id = ids

def inspection (site : Site) : Slot → Except ε (Option Object) → Verdict
  | (.map,schema), r => verdict Error.kind (fun _ => .positive) ((site.map schema).medium.snapshot r)
  | (.log,schema), r => verdict Error.kind (fun _ => .positive) ((site.log schema).medium.snapshot r)
  | (.queue,schema), r =>
      verdict Queue.Error.kind (fun _ => .positive) ((site.queue schema).medium.snapshot r)

section Documents

variable {site : Site} {slot : Slot} {b : Bytes} {ids : List Uuid}

theorem Holds.header (h : site.Holds ε slot b ids) :
    ∃ j, site.serde.fromSlice b = .ok j ∧
      Header.deserialize j = .ok ⟨1,slot.1.text,slot.2⟩ := by
  obtain ⟨k,schema⟩ := slot
  cases k with
  | map =>
      obtain ⟨d,hd,-⟩ := h
      exact Map.decode_header hd
  | log =>
      obtain ⟨d,hd,-⟩ := h
      exact Log.decode_header hd
  | queue =>
      obtain ⟨d,hd,-⟩ := h
      exact Queue.decode_header hd

theorem Holds.slot_eq {slot' : Slot} {ids' : List Uuid} (h : site.Holds ε slot b ids)
    (h' : site.Holds ε slot' b ids') : slot = slot' := by
  obtain ⟨j,hj,hh⟩ := h.header
  obtain ⟨j',hj',hh'⟩ := h'.header
  obtain rfl := Except.ok.inj (hj.symm.trans hj')
  obtain ⟨-,hk,hs⟩ := Header.mk.inj (Except.ok.inj (hh.symm.trans hh'))
  exact Prod.ext (Kind.text_inj hk) hs

theorem Holds.ids_eq {ids' : List Uuid} (h : site.Holds ε slot b ids)
    (h' : site.Holds ε slot b ids') : ids = ids' := by
  obtain ⟨k,schema⟩ := slot
  cases k <;>
  · obtain ⟨d,hd,rfl⟩ := h
    obtain ⟨d',hd',rfl⟩ := h'
    obtain rfl := Except.ok.inj (hd.symm.trans hd')
    rfl

theorem inspection_cases (site : Site) (slot : Slot) (r : Except ε (Option Object)) :
    site.inspection slot r = .ok .positive ∨ ∃ k, site.inspection slot r = .error k := by
  have hv : ∀ {Err α : Type} (kind : Err → ErrorKind) (x : Except Err α),
      verdict kind (fun _ => .positive) x = .ok .positive ∨
        ∃ k, verdict kind (fun _ => .positive) x = .error k := by
    intro Err α kind x
    cases x with
    | ok a => exact .inl rfl
    | error e => exact .inr ⟨kind e,rfl⟩
  obtain ⟨k,schema⟩ := slot
  cases k <;> exact hv _ _

theorem inspection_ok {o : Object} :
    site.inspection slot (.ok (some o) : Except ε (Option Object)) = .ok .positive ↔
      ∃ ids, site.Holds ε slot o.bytes ids := by
  obtain ⟨k,schema⟩ := slot
  cases k with
  | map =>
      simp only [inspection,Medium.snapshot,Map.medium,Holds]
      cases (site.map schema).decode (ε := ε) o.bytes <;> simp [verdict]
  | log =>
      simp only [inspection,Medium.snapshot,Log.medium,Holds]
      cases (site.log schema).decode (ε := ε) o.bytes <;> simp [verdict]
  | queue =>
      simp only [inspection,Medium.snapshot,Queue.medium,Holds]
      cases (site.queue schema).decode (ε := ε) o.bytes <;> simp [verdict]

def Foreign (k : ErrorKind) : Prop := k = .document ∨ k = .corrupt ∨ k = .incompatible

theorem validate_foreign {version : UInt32} {k s k' s' : String} {e : Error ε}
    (h : Core.validate version k s k' s' = .error e) : Foreign e.kind := by
  unfold Core.validate at h
  split at h
  · obtain rfl := Except.error.inj h
    exact .inr (.inr rfl)
  · split at h
    · obtain rfl := Except.error.inj h
      exact .inr (.inr rfl)
    · split at h
      · obtain rfl := Except.error.inj h
        exact .inr (.inr rfl)
      · simp at h

theorem map_foreign {V : Type} {map : Map V} {b : Bytes} {e : Error ε}
    (h : map.decode b = .error e) : Foreign e.kind := by
  rcases except_bind_eq_error.mp h with h | ⟨d,-,h⟩
  · obtain ⟨e',-,rfl⟩ := except_mapError_eq_error.mp h
    exact .inl rfl
  · rcases except_bind_eq_error.mp h with h | ⟨⟨⟩,-,h⟩
    · exact validate_foreign h
    · simp at h

theorem log_foreign {V : Type} {log : Log V} {b : Bytes} {e : Error ε}
    (h : log.decode b = .error e) : Foreign e.kind := by
  rcases except_bind_eq_error.mp h with h | ⟨d,-,h⟩
  · obtain ⟨e',-,rfl⟩ := except_mapError_eq_error.mp h
    exact .inl rfl
  · rcases except_bind_eq_error.mp h with h | ⟨⟨⟩,-,h⟩
    · exact validate_foreign h
    · split at h
      · obtain rfl := Except.error.inj h
        exact .inr (.inl rfl)
      · simp at h

theorem queue_foreign {V : Type} {queue : Queue V} {b : Bytes} {e : Queue.Error ε}
    (h : queue.decode b = .error e) : Foreign e.kind := by
  rcases except_bind_eq_error.mp h with h | ⟨d,-,h⟩
  · obtain ⟨e',-,rfl⟩ := except_mapError_eq_error.mp h
    exact .inl rfl
  · rcases except_bind_eq_error.mp h with h | ⟨⟨⟩,-,h⟩
    · unfold Queue.validate at h
      split at h
      · obtain rfl := Except.error.inj h
        exact .inr (.inr rfl)
      · split at h
        · obtain rfl := Except.error.inj h
          exact .inr (.inr rfl)
        · split at h
          · obtain rfl := Except.error.inj h
            exact .inr (.inr rfl)
          · split at h
            · obtain rfl := Except.error.inj h
              exact .inr (.inl rfl)
            · simp at h
    · simp at h

theorem inspection_error {o : Object} {k : ErrorKind}
    (h : site.inspection slot (.ok (some o) : Except ε (Option Object)) = .error k) :
    Foreign k := by
  obtain ⟨kind,schema⟩ := slot
  cases kind with
  | map =>
      simp only [inspection,Medium.snapshot,Map.medium] at h
      cases hd : (site.map schema).decode (ε := ε) o.bytes with
      | error e =>
          rw [hd] at h
          exact Except.error.inj h ▸ map_foreign hd
      | ok d => simp [hd,verdict] at h
  | log =>
      simp only [inspection,Medium.snapshot,Log.medium] at h
      cases hd : (site.log schema).decode (ε := ε) o.bytes with
      | error e =>
          rw [hd] at h
          exact Except.error.inj h ▸ log_foreign hd
      | ok d => simp [hd,verdict] at h
  | queue =>
      simp only [inspection,Medium.snapshot,Queue.medium] at h
      cases hd : (site.queue schema).decode (ε := ε) o.bytes with
      | error e =>
          rw [hd] at h
          exact Except.error.inj h ▸ queue_foreign hd
      | ok d => simp [hd,verdict] at h

theorem map_empty (ε : Type) (site : Site) (schema : String) :
    ∃ b, (site.map schema).emptyBytes (ε := ε) = .ok b ∧ site.Holds ε (.map,schema) b [] := by
  have hrt : (site.map schema).codec.RoundTrips 2 := site.roundTrips .map schema
  obtain ⟨b,hb,hd⟩ := Map.encode_roundTrip (ε := ε)
    (d := ⟨⟨Core.FORMAT_VERSION,"map",schema⟩,.empty⟩) hrt rfl
  exact ⟨b,hb,_,hd,rfl⟩

theorem log_empty (ε : Type) (site : Site) (schema : String) :
    ∃ b, (site.log schema).emptyBytes (ε := ε) = .ok b ∧ site.Holds ε (.log,schema) b [] := by
  have hrt : (site.log schema).codec.RoundTrips 3 := site.roundTrips .log schema
  obtain ⟨b,hb,hd⟩ := Log.encode_roundTrip (ε := ε)
    (d := ⟨⟨Core.FORMAT_VERSION,"log",schema⟩,[]⟩) hrt rfl .nil
  exact ⟨b,hb,_,hd,rfl⟩

theorem queue_empty (ε : Type) (site : Site) (schema : String) :
    ∃ b, (site.queue schema).emptyBytes (ε := ε) = .ok b ∧
      site.Holds ε (.queue,schema) b [] := by
  have hrt : (site.queue schema).codec.RoundTrips 3 := site.roundTrips .queue schema
  obtain ⟨b,hb,hd⟩ := Queue.encode_roundTrip (ε := ε)
    (d := ⟨⟨Queue.FORMAT_VERSION,Queue.KIND,schema⟩,[]⟩) hrt rfl .nil
  exact ⟨b,hb,_,hd,rfl⟩

end Documents

section Callers

variable {site : Site} {caller : site.Caller} {h : List (Sigma (Reply ε))}

theorem map_perform_follows {α β : Type} {p : Action ε α} {f : α → β} {e : Effect}
    {next : Reply ε e → Action ε β} (hf : (f <$> p).Follows h (.perform e next)) :
    ∃ next', p.Follows h (.perform e next') := by
  obtain ⟨m,hm,hq⟩ := Program.follows_map.mp hf
  obtain ⟨next',rfl,-⟩ := Program.map_eq_perform.mp hq
  exact ⟨next',hm⟩

theorem Caller.lifecycle_effect (hstep : caller.step ≠ none) {e : Effect}
    {next : Reply ε e → Action ε Verdict}
    (hf : (caller.call.program).Follows h (.perform e next)) :
    e = .store (.get site.location) ∨ ∃ b, e = .store (.create site.location b) ∧
      site.Holds ε caller.slot b [] := by
  cases caller with
  | map | log | queue => exact absurd rfl hstep
  | mapLifecycle schema builder built step =>
      obtain ⟨_,hm⟩ := map_perform_follows hf
      rw [MapBuilder.run_eq,built] at hm
      obtain ⟨_,hm⟩ := map_perform_follows hm
      refine (Genesis.effect_inv hm).imp_right ?_
      rintro ⟨b,he,hb⟩
      obtain ⟨b',hb',hh⟩ := map_empty ε site schema
      obtain rfl := Except.ok.inj (hb.symm.trans hb')
      exact ⟨b,he,hh⟩
  | logLifecycle schema builder built step =>
      obtain ⟨_,hm⟩ := map_perform_follows hf
      rw [LogBuilder.run_eq,built] at hm
      obtain ⟨_,hm⟩ := map_perform_follows hm
      refine (Genesis.effect_inv hm).imp_right ?_
      rintro ⟨b,he,hb⟩
      obtain ⟨b',hb',hh⟩ := log_empty ε site schema
      obtain rfl := Except.ok.inj (hb.symm.trans hb')
      exact ⟨b,he,hh⟩
  | queueLifecycle schema builder built step =>
      obtain ⟨_,hm⟩ := map_perform_follows hf
      rw [QueueBuilder.run_eq,built] at hm
      obtain ⟨_,hm⟩ := map_perform_follows hm
      refine (Genesis.effect_inv hm).imp_right ?_
      rintro ⟨b,he,hb⟩
      obtain ⟨b',hb',hh⟩ := queue_empty ε site schema
      obtain rfl := Except.ok.inj (hb.symm.trans hb')
      exact ⟨b,he,hh⟩

theorem Caller.operation_creates (hstep : caller.step = none) {l : Location} {b : Bytes}
    {next : CreateReply ε → Action ε Verdict}
    (hf : (caller.call.program).Follows h (.perform (.store (.create l b)) next)) : False := by
  cases caller with
  | map schema op =>
      obtain ⟨_,hm⟩ := map_perform_follows hf
      rw [Map.perform_eq] at hm
      exact (Procedure.stage_of_follows hm).create_inv
  | log schema op =>
      obtain ⟨_,hm⟩ := map_perform_follows hf
      rw [Log.perform_eq] at hm
      exact (Procedure.stage_of_follows hm).create_inv
  | queue schema op =>
      obtain ⟨_,hm⟩ := map_perform_follows hf
      rw [Queue.perform_eq] at hm
      exact (Procedure.stage_of_follows hm).create_inv
  | mapLifecycle | logLifecycle | queueLifecycle => simp [step] at hstep

structure Rewrites (ε : Type) (site : Site) (slot : Slot) (h : List (Sigma (Reply ε)))
    (b : Bytes) : Prop where
  source : ∃ o ids, ⟨.store (.get site.location),.ok (some o)⟩ ∈ h ∧
    site.Holds ε slot o.bytes ids ∧ ((∀ id ∈ identifiers h, id ∉ ids) →
      ∃ ids', site.Holds ε slot b ids' ∧ ∀ id ∈ ids', id ∈ ids ∨ id ∈ identifiers h)
  reads : ∀ x ∈ h, isRead x = true

theorem Caller.replaces {l : Location} {x : Version} {b : Bytes}
    {next : ReplaceReply ε → Action ε Verdict}
    (hf : (caller.call.program).Follows h (.perform (.store (.replace l x b)) next)) :
    l = site.location ∧ site.Rewrites ε caller.slot h b := by
  cases caller with
  | map schema op =>
      obtain ⟨_,hm⟩ := map_perform_follows hf
      rw [Map.perform_eq] at hm
      have hkeeps : ((site.map schema).medium (ε := ε)).Keeps _ (Map.procedure op) :=
        Map.keeps (site.roundTrips .map schema) op
      obtain ⟨hl,o,d,hg,hr,hd,hk⟩ := hkeeps.replace hm
      refine ⟨hl,⟨o,_,hg,⟨d,hd,rfl⟩,fun hnew => ?_⟩,hr⟩
      obtain ⟨d',hd',hsub⟩ := hk hnew
      exact ⟨_,⟨d',hd',rfl⟩,hsub⟩
  | log schema op =>
      obtain ⟨_,hm⟩ := map_perform_follows hf
      rw [Log.perform_eq] at hm
      have hkeeps : ((site.log schema).medium (ε := ε)).Keeps _ (Log.procedure op) :=
        Log.keeps (site.roundTrips .log schema) op
      obtain ⟨hl,o,d,hg,hr,hd,hk⟩ := hkeeps.replace hm
      refine ⟨hl,⟨o,_,hg,⟨d,hd,rfl⟩,fun hnew => ?_⟩,hr⟩
      obtain ⟨d',hd',hsub⟩ := hk hnew
      exact ⟨_,⟨d',hd',rfl⟩,hsub⟩
  | queue schema op =>
      obtain ⟨_,hm⟩ := map_perform_follows hf
      rw [Queue.perform_eq] at hm
      have hkeeps : ((site.queue schema).medium (ε := ε)).Keeps _ (Queue.procedure op) :=
        Queue.keeps (site.roundTrips .queue schema) op
      obtain ⟨hl,o,d,hg,hr,hd,hk⟩ := hkeeps.replace hm
      refine ⟨hl,⟨o,_,hg,⟨d,hd,rfl⟩,fun hnew => ?_⟩,hr⟩
      obtain ⟨d',hd',hsub⟩ := hk hnew
      exact ⟨_,⟨d',hd',rfl⟩,hsub⟩
  | mapLifecycle | logLifecycle | queueLifecycle =>
      rcases Caller.lifecycle_effect (by simp [step]) hf with he | ⟨_,he,-⟩ <;> simp at he

theorem verdict_ok {Err H : Type} {kind : Err → ErrorKind} {handle : H} {r : Except Err Unit}
    {a : Answer} (h : verdict kind (fun _ => .positive) (r.map (fun _ => handle)) = .ok a) :
    r = .ok () := by
  cases r with
  | ok => rfl
  | error e => simp [verdict] at h

theorem Caller.create_ok (hstep : caller.step = some .create) {a : Answer}
    (hf : (caller.call.program).Follows h (.done (.ok a))) :
    ∃ b v, ⟨.store (.create site.location b),CreateReply.created v⟩ ∈ h := by
  cases caller with
  | map | log | queue => simp [step] at hstep
  | mapLifecycle schema builder built step' =>
      obtain rfl := Option.some.inj hstep
      obtain ⟨r,hr,hv⟩ := Program.follows_map_done.mp hf
      rw [MapBuilder.run_eq,built] at hr
      obtain ⟨u,hg,rfl⟩ := Program.follows_map_done.mp hr
      obtain rfl := verdict_ok hv
      exact Genesis.create_ok hg
  | logLifecycle schema builder built step' =>
      obtain rfl := Option.some.inj hstep
      obtain ⟨r,hr,hv⟩ := Program.follows_map_done.mp hf
      rw [LogBuilder.run_eq,built] at hr
      obtain ⟨u,hg,rfl⟩ := Program.follows_map_done.mp hr
      obtain rfl := verdict_ok hv
      exact Genesis.create_ok hg
  | queueLifecycle schema builder built step' =>
      obtain rfl := Option.some.inj hstep
      obtain ⟨r,hr,hv⟩ := Program.follows_map_done.mp hf
      rw [QueueBuilder.run_eq,built] at hr
      obtain ⟨u,hg,rfl⟩ := Program.follows_map_done.mp hr
      obtain rfl := verdict_ok hv
      exact Genesis.create_ok hg

inductive Admitted (site : Site) (slot : Slot) (h : List (Sigma (Reply ε))) : Verdict → Prop
  | failed (v : Verdict) (x : Sigma (Reply ε)) (mem : x ∈ h) (failed : storeFailed x) :
      Admitted site slot h v
  | created (b : Bytes) (v : Version)
      (won : ⟨.store (.create site.location b),CreateReply.created v⟩ ∈ h) :
      Admitted site slot h (.ok .positive)
  | inspected (h' : List (Sigma (Reply ε))) (x : Sigma (Reply ε))
      (reply : Except ε (Option Object)) (seen : x ∈ h') (shown : shows site.location x)
      (last : h = h' ++ [⟨.store (.get site.location),reply⟩]) :
      Admitted site slot h (site.inspection slot reply)

theorem Admitted.of_genesis {D Err H : Type} {kind : Err → ErrorKind} {g : Genesis D Err ε}
    {slot : Slot} {handle : H} {r : Except Err Unit} (hl : g.location = site.location)
    (hi : ∀ reply, site.inspection slot reply = verdict kind (fun _ => .positive) (g.snapshot reply))
    (ha : g.Admitted h r) :
    site.Admitted slot h (verdict kind (fun _ => .positive) (r.map (fun _ => handle))) := by
  cases ha with
  | failed r x hx hs => exact .failed _ x hx hs
  | created b v hw => exact .created b v (hl ▸ hw)
  | inspected h' x reply hx hs hlast =>
      have hv : verdict kind (fun _ => .positive) (((g.snapshot reply).map (fun _ => ())).map
          (fun _ => handle)) = site.inspection slot reply := by
        rw [hi]
        cases g.snapshot reply <;> rfl
      rw [hv]
      exact .inspected h' x reply hx (hl ▸ hs) (hl ▸ hlast)

theorem Caller.openOrCreate_inv (hstep : caller.step = some .openOrCreate) {v : Verdict}
    (hf : (caller.call.program).Follows h (.done v)) : site.Admitted caller.slot h v := by
  cases caller with
  | map | log | queue => simp [step] at hstep
  | mapLifecycle schema builder built step' =>
      obtain rfl := Option.some.inj hstep
      obtain ⟨r,hr,rfl⟩ := Program.follows_map_done.mp hf
      rw [MapBuilder.run_eq,built] at hr
      obtain ⟨u,hg,rfl⟩ := Program.follows_map_done.mp hr
      obtain ⟨b,hb,-⟩ := map_empty ε site schema
      exact .of_genesis rfl (fun _ => rfl) (Genesis.openOrCreate_inv hb hg)
  | logLifecycle schema builder built step' =>
      obtain rfl := Option.some.inj hstep
      obtain ⟨r,hr,rfl⟩ := Program.follows_map_done.mp hf
      rw [LogBuilder.run_eq,built] at hr
      obtain ⟨u,hg,rfl⟩ := Program.follows_map_done.mp hr
      obtain ⟨b,hb,-⟩ := log_empty ε site schema
      exact .of_genesis rfl (fun _ => rfl) (Genesis.openOrCreate_inv hb hg)
  | queueLifecycle schema builder built step' =>
      obtain rfl := Option.some.inj hstep
      obtain ⟨r,hr,rfl⟩ := Program.follows_map_done.mp hf
      rw [QueueBuilder.run_eq,built] at hr
      obtain ⟨u,hg,rfl⟩ := Program.follows_map_done.mp hr
      obtain ⟨b,hb,-⟩ := queue_empty ε site schema
      exact .of_genesis rfl (fun _ => rfl) (Genesis.openOrCreate_inv hb hg)

end Callers

end Site

end Objsds
