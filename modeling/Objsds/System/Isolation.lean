import Objsds.Core.Client
import Objsds.Memory.Rehearsal
import Objsds.Memory.Tokens
import Objsds.Store.Truthful
import Objsds.System.Mismatch

namespace Objsds

open Foundation

variable {ε : Type}

structure Address where
  ns : String
  kind : Kind
  name : String
deriving DecidableEq

def Kind.directory : Kind → String
  | .map => "maps"
  | .log => "logs"
  | .queue => "queues"

theorem Kind.directory_segment (kind : Kind) : isPathSegment kind.directory = true := by
  cases kind <;> decide

theorem Kind.directory_inj {k k' : Kind} (h : k.directory = k'.directory) : k = k' := by
  revert h
  cases k <;> cases k' <;> simp [directory]

section Text

theorem split_at_slash {cs ds cs' ds' : List Char} (hc : '/' ∉ cs) (hc' : '/' ∉ cs')
    (h : cs ++ '/' :: ds = cs' ++ '/' :: ds') : cs = cs' ∧ ds = ds' := by
  induction cs generalizing cs' with
  | nil =>
      cases cs' with
      | nil => exact ⟨rfl,(List.cons.inj h).2⟩
      | cons c cs' =>
          obtain ⟨rfl,-⟩ := List.cons.inj h
          simp at hc'
  | cons c cs ih =>
      cases cs' with
      | nil =>
          obtain ⟨rfl,-⟩ := List.cons.inj h
          simp at hc
      | cons c' cs' =>
          obtain ⟨rfl,htail⟩ := List.cons.inj h
          simp only [List.mem_cons,not_or] at hc hc'
          obtain ⟨rfl,rfl⟩ := ih hc.2 hc'.2 htail
          exact ⟨rfl,rfl⟩

theorem structureText_inj {ns kind name ns' kind' name' : String}
    (hns : isPathSegment ns = true) (hns' : isPathSegment ns' = true)
    (hkind : isPathSegment kind = true) (hkind' : isPathSegment kind' = true)
    (h : structureText ns kind name = structureText ns' kind' name') :
    ns = ns' ∧ kind = kind' ∧ name = name' := by
  have hlist := congrArg String.toList h
  rw [structureText_toList,structureText_toList] at hlist
  obtain ⟨-,-,-,hs⟩ := isPathSegment_iff.mp hns
  obtain ⟨-,-,-,hs'⟩ := isPathSegment_iff.mp hns'
  obtain ⟨-,-,-,hk⟩ := isPathSegment_iff.mp hkind
  obtain ⟨-,-,-,hk'⟩ := isPathSegment_iff.mp hkind'
  obtain ⟨h₁,hrest⟩ := split_at_slash hs hs' hlist
  obtain ⟨h₂,hlast⟩ := split_at_slash hk hk' hrest
  exact ⟨String.toList_inj.mp h₁,String.toList_inj.mp h₂,
    String.toList_inj.mp (List.append_cancel_right hlast)⟩

end Text

namespace Handle

def location : Handle → Location
  | .map handle => handle.location
  | .log handle => handle.location
  | .queue handle => handle.location

inductive For (a : Address) : Handle → Prop
  | map {S V : Type} (b : ClientBuilder S) (client : Client S) (codec : Codec V) (serde : Serde)
      (schema : String) (handle : Map V) (built : b.build = .ok client) (ns : client.ns = a.ns)
      (kind : a.kind = .map)
      (finished : ((client.map a.name codec serde).withSchema schema).finish = .ok handle) :
      For a (.map handle)
  | log {S V : Type} (b : ClientBuilder S) (client : Client S) (codec : Codec V) (serde : Serde)
      (schema : String) (handle : Log V) (built : b.build = .ok client) (ns : client.ns = a.ns)
      (kind : a.kind = .log)
      (finished : ((client.log a.name codec serde).withSchema schema).finish = .ok handle) :
      For a (.log handle)
  | queue {V : Type} (codec : Codec V) (serde : Serde) (schema : String) (handle : Queue V)
      (kind : a.kind = .queue)
      (finished : ((QueueBuilder.new a.ns a.name codec serde).withSchema schema).finish =
        .ok handle) :
      For a (.queue handle)

end Handle

section Builders

variable {V : Type}

theorem Core.location_eq_ok {ns kind name : String} {l : Location}
    (h : Core.location ns kind name = .ok l) : Location.structure ns kind name = .ok l := by
  unfold Core.location at h
  split at h
  · simp at h
  · exact except_mapError_eq_ok.mp h

theorem MapBuilder.finish_location {b : MapBuilder V} {handle : Map V}
    (h : b.finish = .ok handle) : b.location = .ok handle.location := by
  obtain ⟨schema,-,h⟩ := except_bind_eq_ok.mp h
  split at h
  · simp [throw,throwThe,MonadExceptOf.throw] at h
  · obtain ⟨l,hl,h⟩ := except_bind_eq_ok.mp h
    rw [← Except.ok.inj h]
    exact hl

theorem LogBuilder.finish_location {b : LogBuilder V} {handle : Log V}
    (h : b.finish = .ok handle) : b.location = .ok handle.location := by
  obtain ⟨schema,-,h⟩ := except_bind_eq_ok.mp h
  split at h
  · simp [throw,throwThe,MonadExceptOf.throw] at h
  · obtain ⟨l,hl,h⟩ := except_bind_eq_ok.mp h
    rw [← Except.ok.inj h]
    exact hl

theorem QueueBuilder.finish_location {b : QueueBuilder V} {handle : Queue V}
    (h : b.finish = .ok handle) :
    Location.structure b.ns "queues" b.name = .ok handle.location := by
  unfold finish at h
  cases hns : isPathSegment b.ns with
  | false => simp [hns,throw,throwThe,MonadExceptOf.throw] at h
  | true =>
      cases hname : isPathSegment b.name with
      | false => simp [hns,hname,throw,throwThe,MonadExceptOf.throw] at h
      | true =>
          simp only [hns,hname,not_true_eq_false,if_false] at h
          obtain ⟨schema,-,h⟩ := except_bind_eq_ok.mp h
          obtain ⟨l,hl,h⟩ := except_bind_eq_ok.mp h
          rw [← Except.ok.inj h]
          exact except_mapError_eq_ok.mp hl

theorem Location.structure_eq_ok {ns kind name : String} {l : Location}
    (h : Location.structure ns kind name = .ok l) :
    isPathSegment ns = true ∧ isPathSegment kind = true ∧ isPathSegment name = true ∧
      l.asStr = structureText ns kind name := by
  unfold Location.structure at h
  split at h
  · rename_i hs
    simp only [List.all_cons,List.all_nil,Bool.and_true,Bool.and_eq_true] at hs
    refine ⟨hs.1,hs.2.1,hs.2.2,?_⟩
    unfold Location.new at h
    split at h
    · rw [← Except.ok.inj h]
    · simp at h
  · simp at h

theorem Handle.For.structure {a : Address} {t : Handle} (h : t.For a) :
    Location.structure a.ns a.kind.directory a.name = .ok t.location := by
  cases h with
  | map b client codec serde schema handle built ns kind finished =>
      rw [kind,← ns]
      exact Core.location_eq_ok (MapBuilder.finish_location finished)
  | log b client codec serde schema handle built ns kind finished =>
      rw [kind,← ns]
      exact Core.location_eq_ok (LogBuilder.finish_location finished)
  | queue codec serde schema handle kind finished =>
      rw [kind]
      exact QueueBuilder.finish_location finished

theorem Handle.For.unique {a a' : Address} {t t' : Handle} (h : t.For a) (h' : t'.For a')
    (hl : t.location = t'.location) : a = a' := by
  obtain ⟨hns,hkind,-,htext⟩ := Location.structure_eq_ok h.structure
  obtain ⟨hns',hkind',-,htext'⟩ := Location.structure_eq_ok h'.structure
  have heq : structureText a.ns a.kind.directory a.name =
      structureText a'.ns a'.kind.directory a'.name := by
    rw [← htext,← htext',hl]
  obtain ⟨h₁,h₂,h₃⟩ := structureText_inj hns hns' hkind hkind' heq
  obtain ⟨ns,kind,name⟩ := a
  obtain ⟨ns',kind',name'⟩ := a'
  rw [Address.mk.injEq]
  exact ⟨h₁,Kind.directory_inj h₂,h₃⟩

end Builders

section Effects

variable {D Err α : Type}

def Aims (l : Location) (e : Effect) : Prop := ∀ l', e.target = some l' → l' = l

theorem aims_at {l : Location} {e : Effect} (h : e.target = some l) : Aims l e := by
  intro l' hl
  exact Option.some.inj (hl.symm.trans h)

theorem aims_nowhere {l : Location} {e : Effect} (h : e.target = none) : Aims l e := by
  intro l' hl
  simp [h] at hl

theorem Plan.program_only (m : Medium D Err ε) (x : Version) (plan : Plan D Err α) :
    (plan.program m x).Only (Aims m.location) := by
  induction plan with
  | respond result => trivial
  | generate next ih => exact ⟨aims_nowhere rfl,ih⟩
  | commit document reply =>
      rw [Plan.program]
      cases m.encode document with
      | error e => trivial
      | ok b => exact ⟨aims_at rfl,fun r => trivial⟩

theorem Procedure.program_only (m : Medium D Err ε) (p : Procedure D Err α) :
    (p.program m).Only (Aims m.location) := by
  induction p with
  | respond result => trivial
  | clock next ih => exact ⟨aims_nowhere rfl,ih⟩
  | transact plan =>
      refine ⟨aims_at rfl,fun r => ?_⟩
      simp only [Medium.resume]
      cases m.snapshot r with
      | error e => trivial
      | ok found => exact Plan.program_only m found.1 (plan found.2)

theorem Genesis.inspect_only (g : Genesis D Err ε) : g.inspect.Only (Aims g.location) :=
  ⟨aims_at rfl,fun _ => trivial⟩

theorem Genesis.establish_only (g : Genesis D Err ε)
    {lost : Version → Action ε (Except Err Unit)} (hl : ∀ v, (lost v).Only (Aims g.location)) :
    (g.establish lost).Only (Aims g.location) := by
  rw [establish]
  cases g.emptyBytes with
  | error e => trivial
  | ok b =>
      refine ⟨aims_at rfl,fun r => ?_⟩
      cases r with
      | alreadyExists observed => exact hl observed
      | created v | failed source | uncertain source v => trivial

theorem Genesis.program_only (g : Genesis D Err ε) (step : Lifecycle) :
    (g.program step).Only (Aims g.location) := by
  cases step with
  | create => exact g.establish_only (fun _ => trivial)
  | openExisting => exact g.inspect_only
  | openOrCreate =>
      refine ⟨aims_at rfl,fun r => ?_⟩
      match r with
      | .error source => trivial
      | .ok (some o) => exact g.inspect_only
      | .ok none => exact g.establish_only (fun _ => g.inspect_only)

def Call.Aims (call : Call) (e : Effect) : Prop :=
  ∀ l, e.target = some l → ∃ t, call.handle = some t ∧ t.location = l

theorem Call.aims_of {call : Call} {t : Handle} (h : call.handle = some t) (e : Effect)
    (ha : Objsds.Aims t.location e) : call.Aims e :=
  fun l hl => ⟨t,h,(ha l hl).symm⟩

theorem Call.program_only (call : Call) : (call.program (ε := ε)).Only call.Aims := by
  cases call with
  | map handle op =>
      rw [Call.program,Map.perform_eq]
      exact (Procedure.program_only handle.medium _).map.mono (aims_of (t := .map handle) rfl)
  | log handle op =>
      rw [Call.program,Log.perform_eq]
      exact (Procedure.program_only handle.medium _).map.mono (aims_of (t := .log handle) rfl)
  | queue handle op =>
      rw [Call.program,Queue.perform_eq]
      exact (Procedure.program_only handle.medium _).map.mono (aims_of (t := .queue handle) rfl)
  | mapLifecycle builder step =>
      rw [Call.program,MapBuilder.run_eq]
      cases hb : builder.finish with
      | error e => trivial
      | ok handle =>
          have hh : Call.handle (.mapLifecycle builder step) = some (.map handle) := by
            rw [Call.handle,hb]
            rfl
          exact (Genesis.program_only handle.genesis step).map.map.mono (aims_of hh)
  | logLifecycle builder step =>
      rw [Call.program,LogBuilder.run_eq]
      cases hb : builder.finish with
      | error e => trivial
      | ok handle =>
          have hh : Call.handle (.logLifecycle builder step) = some (.log handle) := by
            rw [Call.handle,hb]
            rfl
          exact (Genesis.program_only handle.genesis step).map.map.mono (aims_of hh)
  | queueLifecycle builder step =>
      rw [Call.program,QueueBuilder.run_eq]
      cases hb : builder.finish with
      | error e => trivial
      | ok handle =>
          have hh : Call.handle (.queueLifecycle builder step) = some (.queue handle) := by
            rw [Call.handle,hb]
            rfl
          exact (Genesis.program_only handle.genesis step).map.map.mono (aims_of hh)

end Effects

section Frame

variable {β : Type} {S : ObjectStore ε} {c c' : Config S.State (Reply ε) β}

theorem step_frame {ev : Event (Reply ε)} {l : Location} (hs : Step S.Env c ev c')
    (ha : ev.effect.target ≠ some l) : S.objects c'.world l = S.objects c.world l := by
  rw [hs.world.objects_eq l]
  cases hst : stores l ev with
  | none => rfl
  | some o => exact absurd (stores_target hst) ha

theorem call_frame {calls : ℕ → Call} {address : ℕ → Address} {s : S.State}
    {tr : Trace (Reply ε)} {c c' : Config S.State (Reply ε) Verdict} {ev : Event (Reply ε)}
    {a : Address} {t : Handle} (hfor : ∀ i t, (calls i).handle = some t → t.For (address i))
    (hrun : Run S.Env ⟨s,fun i => (calls i).program⟩ tr c) (hs : Step S.Env c ev c')
    (ht : t.For a) (hne : a ≠ address ev.call) :
    S.objects c'.world t.location = S.objects c.world t.location := by
  refine step_frame hs (fun htarget => ?_)
  have haims := (Run.only (.snoc hrun hs) (fun i => (calls i).program_only)).1 ev (by simp)
  obtain ⟨t',ht',hl⟩ := haims t.location htarget
  exact hne (ht.unique (hfor ev.call t' ht') hl.symm)

end Frame

section Isolated

theorem structure_accepted {S : Type} {b : ClientBuilder S} {client : Client S}
    (hb : b.build = .ok client) (kind : Kind) {name : String} (hn : isPathSegment name = true) :
    ∃ l, Location.structure client.ns kind.directory name = .ok l :=
  ⟨_,Location.structure_eq (ClientBuilder.build_ns hb) kind.directory_segment hn⟩

theorem structures_isolated :
    (∀ {S : Type} (b : ClientBuilder S) (client : Client S), b.build = .ok client →
      ∀ kind name, isPathSegment name = true →
        ∃ l, Location.structure client.ns (Kind.directory kind) name = .ok l) ∧
    (∀ ns name, isPathSegment ns = true → isPathSegment name = true →
      ∃ l, Location.structure ns "queues" name = .ok l) ∧
    (∀ (a a' : Address) (t t' : Handle), t.For a → t'.For a' → t.location = t'.location →
      a = a') ∧
    ∀ (calls : ℕ → Call) (address : ℕ → Address),
      (∀ i t, (calls i).handle = some t → t.For (address i)) →
      ∀ (tr : Trace (Reply Empty)) (c : Config Memory.store.State (Reply Empty) Verdict),
        Run Memory.store.Env ⟨Memory.State.default,fun i => (calls i).program⟩ tr c →
        (∀ ev c' a t, Step Memory.store.Env c ev c' → Handle.For a t → a ≠ address ev.call →
          c'.world.objects t.location = c.world.objects t.location) ∧
        ((writes tr).length < 2 ^ 64 → ∀ a a' t t', Handle.For a t → Handle.For a' t' → a ≠ a' →
          ∀ x, (∃ ev ∈ tr, Tells t.location x ev.answer) →
            ∀ i b v, ⟨i,.store (.replace t'.location x b),.replaced v⟩ ∉ tr) := by
  refine ⟨fun b client hb kind name hn => structure_accepted hb kind hn,
    fun ns name hns hname => ⟨_,Location.structure_eq hns (by decide) hname⟩,
    fun a a' t t' h h' hl => h.unique h' hl,?_⟩
  intro calls address hfor tr c hrun
  constructor
  · intro ev c' a t hs ht hne
    exact call_frame hfor hrun hs ht hne
  · intro hlt a a' t t' ht ht' hne x ⟨ev,hev,htells⟩ i b v hr
    have hnodup := Memory.writes_nodup hrun (by simpa [Memory.State.default] using hlt)
    have hl := told_replaced Memory.store_truthful hrun (fun _ => rfl) hnodup hev htells hr
    exact hne (ht.unique ht' hl.symm)

-- A map and a log of one name in one namespace.
def ledgerMap : Map String := ⟨⟨"shop/maps/ledger.json",by decide⟩,"v1",textCodec,compact⟩

def ledgerLog : Log String := ⟨⟨"shop/logs/ledger.json",by decide⟩,"v1",textCodec,compact⟩

def ledger : ℕ → Call
  | 0 => .mapLifecycle ((MapBuilder.new "shop" "ledger" textCodec compact).withSchema "v1") .create
  | 1 => .logLifecycle ((LogBuilder.new "shop" "ledger" textCodec compact).withSchema "v1") .create
  | 2 => .map ledgerMap (.insert "a" "1")
  | _ => .log ledgerLog (.append "opened")

def ledgerAddress : ℕ → Address
  | 0 | 2 => ⟨"shop",.map,"ledger"⟩
  | _ => ⟨"shop",.log,"ledger"⟩

theorem ledger_handles {i : ℕ} {t : Handle} (h : (ledger i).handle = some t) :
    t.For (ledgerAddress i) := by
  have hmap : Handle.For ⟨"shop",.map,"ledger"⟩ (.map ledgerMap) :=
    .map (S := Unit) ⟨some (),some "shop"⟩ ⟨(),"shop"⟩ textCodec compact "v1" _ rfl rfl rfl rfl
  have hlog : Handle.For ⟨"shop",.log,"ledger"⟩ (.log ledgerLog) :=
    .log (S := Unit) ⟨some (),some "shop"⟩ ⟨(),"shop"⟩ textCodec compact "v1" _ rfl rfl rfl rfl
  match i,h with
  | 0,h | 2,h =>
      obtain rfl : .map ledgerMap = t := Option.some.inj h
      exact hmap
  | 1,h | _ + 3,h =>
      obtain rfl : .log ledgerLog = t := Option.some.inj h
      exact hlog

theorem ledger_isolated : ∃ (tr : Trace (Reply Empty))
    (c : Config Memory.store.State (Reply Empty) Verdict),
    Run Memory.store.Env ⟨Memory.State.default,fun i => (ledger i).program⟩ tr c ∧
      c.calls 2 = .done (.ok .positive) ∧ c.calls 3 = .done (.ok .positive) ∧
      (writes tr).length = 4 ∧
      (∀ ev c' a t, Step Memory.store.Env c ev c' → Handle.For a t → a ≠ ledgerAddress ev.call →
        c'.world.objects t.location = c.world.objects t.location) ∧
      ∀ x, (∃ ev ∈ tr, Tells ledgerMap.location x ev.answer) →
        ∀ i b v, ⟨i,.store (.replace ledgerLog.location x b),.replaced v⟩ ∉ tr := by
  have hplay : plays Memory.Script.answer Memory.Script.state [(0,9),(1,9),(2,9),(3,9)]
      ⟨⟨[7],[],Memory.State.default⟩,fun i => (ledger i).program⟩ (fun tr c =>
        ended (· = .ok .positive) (c.calls 2) && ended (· = .ok .positive) (c.calls 3) &&
        (writes tr).length = 4) = true := by
    decide +kernel
  obtain ⟨tr,c,hr,hends⟩ := Memory.Script.run hplay
  simp only [Bool.and_eq_true,ended_iff,decide_eq_true_eq] at hends
  obtain ⟨⟨⟨_,h2,rfl⟩,⟨_,h3,rfl⟩⟩,hwrites⟩ := hends
  obtain ⟨hframe,htokens⟩ :=
    structures_isolated.2.2.2 ledger ledgerAddress (fun _ _ h => ledger_handles h) tr c hr
  have hmap := ledger_handles (i := 2) rfl
  have hlog := ledger_handles (i := 3) rfl
  exact ⟨tr,c,hr,h2,h3,hwrites,hframe,
    htokens (by omega) _ _ _ _ hmap hlog (by simp [ledgerAddress])⟩

end Isolated

end Objsds
