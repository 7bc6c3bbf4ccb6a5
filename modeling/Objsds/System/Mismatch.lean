import Objsds.System.Formats

namespace Objsds

open Foundation

variable {ε D Err α : Type}

def IsGet (x : Sigma (Reply ε)) : Prop := ∃ l r, x = ⟨.store (.get l),r⟩

def Shown (b : Bytes) (h : List (Sigma (Reply ε))) : Prop :=
  ∀ l r, ⟨.store (.get l),r⟩ ∈ h → ∃ o : Object, r = .ok (some o) ∧ o.bytes = b

section Reads

variable {b : Bytes} {h : List (Sigma (Reply ε))} {e : Err}

theorem Shown.tail {x : Sigma (Reply ε)} (hb : Shown b (x :: h)) : Shown b h :=
  fun l r hx => hb l r (List.mem_cons_of_mem _ hx)

theorem Medium.resume_refused {m : Medium D Err ε} {plan : D → Plan D Err α} {o : Object}
    (hd : m.decode o.bytes = .error e) : m.resume plan (.ok (some o)) = .done (.error e) := by
  simp [resume,snapshot,hd,Except.map]

theorem Procedure.refused_of_decode {m : Medium D Err ε} {p : Procedure D Err α}
    {result : Except Err α} (hd : m.decode b = .error e) (hread : ∃ x ∈ h, IsGet x)
    (hb : Shown b h) (hf : (p.program m).Follows h (.done result)) : result = .error e := by
  induction p generalizing h with
  | respond answer =>
      obtain ⟨rfl,-⟩ := Program.follows_done.mp hf
      obtain ⟨x,hx,-⟩ := hread
      simp at hx
  | clock next ih =>
      rcases Program.follows_perform.mp hf with ⟨-,hq⟩ | ⟨now,h',rfl,hn⟩
      · simp at hq
      · refine ih now ?_ hb.tail hn
        obtain ⟨x,hx,l,r,rfl⟩ := hread
        exact ⟨_,by simpa using hx,l,r,rfl⟩
  | transact plan =>
      rcases Program.follows_perform.mp hf with ⟨-,hq⟩ | ⟨r,h',rfl,hn⟩
      · simp at hq
      · obtain ⟨o,rfl,rfl⟩ := hb _ _ (List.mem_cons_self ..)
        rw [Medium.resume_refused hd] at hn
        exact Program.done.inj (Program.follows_done.mp hn).2

theorem Procedure.transact_refused {m : Medium D Err ε} {plan : D → Plan D Err α}
    {version : Version} (hd : m.decode b = .error e) :
    ((Procedure.transact plan).program m).Follows
      [⟨.store (.get m.location),.ok (some ⟨b,version⟩)⟩] (.done (.error e)) := by
  refine .step ?_
  rw [Medium.resume_refused hd]
  exact .refl _

theorem Genesis.inspect_refused {g : Genesis D Err ε} {result : Except Err Unit}
    (hd : g.decode b = .error e) (hb : Shown b h) (hf : g.inspect.Follows h (.done result)) :
    result = .error e := by
  obtain ⟨reply,rfl,rfl⟩ := inspect_done hf
  obtain ⟨o,rfl,rfl⟩ := hb _ _ (List.mem_cons_self ..)
  simp [Medium.snapshot,hd,Except.map]

theorem Genesis.refused_of_decode {g : Genesis D Err ε} {step : Lifecycle}
    {result : Except Err Unit} (hstep : step ≠ .create) (hd : g.decode b = .error e)
    (hb : Shown b h) (hf : (g.program step).Follows h (.done result)) : result = .error e := by
  cases step with
  | create => exact absurd rfl hstep
  | openExisting => exact inspect_refused hd hb hf
  | openOrCreate =>
      rcases Program.follows_perform.mp hf with ⟨-,hq⟩ | ⟨r,h',rfl,hn⟩
      · simp at hq
      · obtain ⟨o,rfl,rfl⟩ := hb _ _ (List.mem_cons_self ..)
        exact inspect_refused hd hb.tail hn

end Reads

def firstDifference (observed expected : Header) : Option CompatibilityError :=
  if observed.formatVersion ≠ expected.formatVersion then
    some (.formatVersion expected.formatVersion observed.formatVersion)
  else if observed.kind ≠ expected.kind then some (.kind expected.kind observed.kind)
  else if observed.schema ≠ expected.schema then some (.schema expected.schema observed.schema)
  else none

def Queue.reason : CompatibilityError → String
  | .formatVersion expected observed =>
      s!"expected format version {expected}, observed {observed}"
  | .kind expected observed => s!"expected kind {expected}, observed {observed}"
  | .schema expected observed => s!"expected schema {expected}, observed {observed}"

abbrev Failure (ε : Type) := Error ε ⊕ Queue.Error ε

namespace Handle

def incompatible : Handle → CompatibilityError → Failure ε
  | .map _, e => .inl (.incompatible e)
  | .log _, e => .inl (.incompatible e)
  | .queue _, e => .inr (.incompatible (Queue.reason e))

-- The part of the document outside its metadata is one of the handle's own documents.
def PayloadDecodes : Handle → Json → Prop
  | .map handle, j => ∃ entries,
      Header.payload "entries" (Json.btreeMap handle.codec.deserialize) j = .ok entries
  | .log handle, j => ∃ records, Header.payload "records"
      (Json.sequence (Record.deserialize handle.serde handle.codec)) j = .ok records
  | .queue handle, j => ∃ messages, Header.payload "messages"
      (Json.sequence (Message.deserialize handle.serde handle.codec)) j = .ok messages

end Handle

section Decoding

variable {V : Type} {b : Bytes} {j : Json} {observed : Header} {e : CompatibilityError}

theorem Core.validate_of_difference {kind schema : String}
    (he : firstDifference observed ⟨1,kind,schema⟩ = some e) :
    validate (ε := ε) observed.formatVersion observed.kind observed.schema kind schema =
      .error (.incompatible e) := by
  unfold firstDifference at he
  unfold validate FORMAT_VERSION
  split at he
  · rw [if_pos ‹_›,← Option.some.inj he]
  · rw [if_neg ‹_›]
    split at he
    · rw [if_pos ‹_›,← Option.some.inj he]
    · rw [if_neg ‹_›]
      split at he
      · rw [if_pos ‹_›,← Option.some.inj he]
      · simp at he

theorem Queue.validate_of_difference {document : Document V} {schema : String}
    (he : firstDifference document.toHeader ⟨1,KIND,schema⟩ = some e) :
    validate (ε := ε) document schema = .error (.incompatible (reason e)) := by
  unfold firstDifference at he
  unfold validate FORMAT_VERSION
  split at he
  · rw [if_pos ‹_›,← Option.some.inj he]
    rfl
  · rw [if_neg ‹_›]
    split at he
    · rw [if_pos ‹_›,← Option.some.inj he]
      rfl
    · rw [if_neg ‹_›]
      split at he
      · rw [if_pos ‹_›,← Option.some.inj he]
        rfl
      · simp at he

theorem Map.decode_of_difference {handle : Map V} (hj : handle.serde.fromSlice b = .ok j)
    (hh : Header.deserialize j = .ok observed)
    (he : firstDifference observed (Handle.map handle).header = some e) :
    ∃ error, handle.decode (ε := ε) b = .error error ∧
      (error = .incompatible e ↔ (Handle.map handle).PayloadDecodes j) := by
  rw [decode_eq_accept,hj,except_mapError_ok,except_ok_bind,accept,OwnedMapDocument.deserialize,
    hh,except_ok_bind,Handle.PayloadDecodes]
  cases Header.payload "entries" (Json.btreeMap handle.codec.deserialize) j with
  | error e' => exact ⟨_,rfl,by simp⟩
  | ok entries =>
      have hv : Core.validate (ε := ε) _ _ _ "map" handle.schema = _ :=
        Core.validate_of_difference he
      exact ⟨.incompatible e,by simp [hv],by simp⟩

theorem Log.decode_of_difference {handle : Log V} (hj : handle.serde.fromSlice b = .ok j)
    (hh : Header.deserialize j = .ok observed)
    (he : firstDifference observed (Handle.log handle).header = some e) :
    ∃ error, handle.decode (ε := ε) b = .error error ∧
      (error = .incompatible e ↔ (Handle.log handle).PayloadDecodes j) := by
  rw [decode_eq_accept,hj,except_mapError_ok,except_ok_bind,accept,LogDocument.deserialize,
    hh,except_ok_bind,Handle.PayloadDecodes]
  cases Header.payload "records" (Json.sequence (Record.deserialize handle.serde handle.codec)) j with
  | error e' => exact ⟨_,rfl,by simp⟩
  | ok records =>
      have hv : Core.validate (ε := ε) _ _ _ "log" handle.schema = _ :=
        Core.validate_of_difference he
      exact ⟨.incompatible e,by simp [hv],by simp⟩

theorem Queue.decode_of_difference {handle : Queue V} (hj : handle.serde.fromSlice b = .ok j)
    (hh : Header.deserialize j = .ok observed)
    (he : firstDifference observed (Handle.queue handle).header = some e) :
    ∃ error, handle.decode (ε := ε) b = .error error ∧
      (error = .incompatible (reason e) ↔ (Handle.queue handle).PayloadDecodes j) := by
  rw [decode_eq_accept,hj,except_mapError_ok,except_ok_bind,accept,Document.deserialize,
    hh,except_ok_bind,Handle.PayloadDecodes]
  cases Header.payload "messages"
      (Json.sequence (Message.deserialize handle.serde handle.codec)) j with
  | error e' => exact ⟨_,rfl,by simp⟩
  | ok messages =>
      have hv : validate (ε := ε) (⟨observed,messages⟩ : Document V) handle.schema = _ :=
        validate_of_difference he
      exact ⟨.incompatible (reason e),by simp [hv],by simp⟩

end Decoding

namespace Call

def handle : Call → Option Handle
  | .map handle _ => some (.map handle)
  | .log handle _ => some (.log handle)
  | .queue handle _ => some (.queue handle)
  | .mapLifecycle builder _ => builder.finish.toOption.map .map
  | .logLifecycle builder _ => builder.finish.toOption.map .log
  | .queueLifecycle builder _ => builder.finish.toOption.map .queue

def creates : Call → Bool
  | .mapLifecycle _ .create | .logLifecycle _ .create | .queueLifecycle _ .create => true
  | _ => false

def reported {α Err : Type} (f : Err → Failure ε) (r : Except Err α) : Except (Failure ε) Unit :=
  (r.map (fun _ => ())).mapError f

def report : Call → Action ε (Except (Failure ε) Unit)
  | .map handle op => reported .inl <$> handle.perform op
  | .log handle op => reported .inl <$> handle.perform op
  | .queue handle op => reported .inr <$> handle.perform op
  | .mapLifecycle builder step => reported .inl <$> (builder.run step).run
  | .logLifecycle builder step => reported .inl <$> (builder.run step).run
  | .queueLifecycle builder step => reported .inr <$> (builder.run step).run

section Reports

variable {b : Bytes} {h : List (Sigma (Reply ε))} {result : Except (Failure ε) Unit}
  {f : Err → Failure ε} {error : Err}

theorem reported_procedure {m : Medium D Err ε} {p : Procedure D Err α}
    (hd : m.decode b = .error error) (hread : ∃ x ∈ h, IsGet x) (hb : Shown b h)
    (hf : Program.Follows (reported f <$> p.program m) h (.done result)) :
    result = .error (f error) := by
  obtain ⟨r,hr,rfl⟩ := Program.follows_map_done.mp hf
  rw [Procedure.refused_of_decode hd hread hb hr]
  rfl

theorem reported_lifecycle {H : Type} {g : Genesis D Err ε} {handle : H} {step : Lifecycle}
    (hstep : step ≠ .create) (hd : g.decode b = .error error) (hb : Shown b h)
    (hf : Program.Follows (reported f <$> (fun r => r.map (fun _ => handle)) <$> g.program step) h
      (.done result)) :
    result = .error (f error) := by
  obtain ⟨outer,ho,rfl⟩ := Program.follows_map_done.mp hf
  obtain ⟨inner,hi,rfl⟩ := Program.follows_map_done.mp ho
  rw [Genesis.refused_of_decode hstep hd hb hi]
  rfl

theorem handle_built {B H : Type} {finish : Except B H} {f : H → Handle} {handle : Handle}
    (hc : finish.toOption.map f = some handle) : ∃ self, finish = .ok self ∧ f self = handle := by
  cases finish with
  | error e => simp [Except.toOption] at hc
  | ok self => exact ⟨self,rfl,Option.some.inj hc⟩

end Reports

end Call

theorem mismatch_reported_iff {call : Call} {t : Handle} {b : Bytes} {j : Json}
    {observed : Header} {e : CompatibilityError} {h : List (Sigma (Reply ε))}
    {result : Except (Failure ε) Unit} (hcall : call.handle = some t)
    (hstep : call.creates = false) (hj : t.serde.fromSlice b = .ok j)
    (hh : Header.deserialize j = .ok observed)
    (he : firstDifference observed t.header = some e)
    (hread : ∃ x ∈ h, IsGet x) (hb : Shown b h) (hf : call.report.Follows h (.done result)) :
    result = .error (t.incompatible e) ↔ t.PayloadDecodes j := by
  cases call with
  | map self op =>
      obtain rfl := Option.some.inj hcall
      obtain ⟨error,hd,hiff⟩ := Map.decode_of_difference (ε := ε) hj hh he
      rw [Call.report,Map.perform_eq] at hf
      rw [Call.reported_procedure hd hread hb hf,← hiff]
      simp [Handle.incompatible]
  | log self op =>
      obtain rfl := Option.some.inj hcall
      obtain ⟨error,hd,hiff⟩ := Log.decode_of_difference (ε := ε) hj hh he
      rw [Call.report,Log.perform_eq] at hf
      rw [Call.reported_procedure hd hread hb hf,← hiff]
      simp [Handle.incompatible]
  | queue self op =>
      obtain rfl := Option.some.inj hcall
      obtain ⟨error,hd,hiff⟩ := Queue.decode_of_difference (ε := ε) hj hh he
      rw [Call.report,Queue.perform_eq] at hf
      rw [Call.reported_procedure hd hread hb hf,← hiff]
      simp [Handle.incompatible]
  | mapLifecycle builder step =>
      obtain ⟨self,hfin,rfl⟩ := Call.handle_built hcall
      have hne : step ≠ .create := by
        rintro rfl
        simp [Call.creates] at hstep
      obtain ⟨error,hd,hiff⟩ := Map.decode_of_difference (ε := ε) hj hh he
      rw [Call.report,MapBuilder.run_eq,hfin] at hf
      rw [Call.reported_lifecycle (g := self.genesis) hne hd hb hf,← hiff]
      simp [Handle.incompatible]
  | logLifecycle builder step =>
      obtain ⟨self,hfin,rfl⟩ := Call.handle_built hcall
      have hne : step ≠ .create := by
        rintro rfl
        simp [Call.creates] at hstep
      obtain ⟨error,hd,hiff⟩ := Log.decode_of_difference (ε := ε) hj hh he
      rw [Call.report,LogBuilder.run_eq,hfin] at hf
      rw [Call.reported_lifecycle (g := self.genesis) hne hd hb hf,← hiff]
      simp [Handle.incompatible]
  | queueLifecycle builder step =>
      obtain ⟨self,hfin,rfl⟩ := Call.handle_built hcall
      have hne : step ≠ .create := by
        rintro rfl
        simp [Call.creates] at hstep
      obtain ⟨error,hd,hiff⟩ := Queue.decode_of_difference (ε := ε) hj hh he
      rw [Call.report,QueueBuilder.run_eq,hfin] at hf
      rw [Call.reported_lifecycle (g := self.genesis) hne hd hb hf,← hiff]
      simp [Handle.incompatible]

-- The stock of a shop was counted by numbers under "v1" and is described by texts under "v2".
def stock : Map String := ⟨⟨"shop/maps/stock.json",by decide⟩,"v2",textCodec,compact⟩

def counted : Json :=
  Header.document ⟨1,"map","v1"⟩ "entries" (.object [("apples",.ofU64 7)])

theorem newer_schema_reported_malformed :
    stock.serde.fromSlice (compact.toVec counted) = .ok counted ∧
    Header.deserialize counted = .ok ⟨1,"map","v1"⟩ ∧
    firstDifference ⟨1,"map","v1"⟩ (Handle.map stock).header = some (.schema "v2" "v1") ∧
    (Call.report (ε := Empty) (.map stock .entries)).Follows
      [⟨.store (.get stock.location),.ok (some ⟨compact.toVec counted,⟨"1"⟩⟩)⟩]
      (.done (.error (.inl (.document (.deserialize .data))))) := by
  have hs : compact.fromSlice (compact.toVec counted) = .ok counted :=
    compact.fromSlice_toVec (by decide)
  have hh : Header.deserialize counted = .ok ⟨1,"map","v1"⟩ :=
    Header.deserialize_document _ _ (by decide) (by decide) (by decide)
  have hd : stock.decode (ε := Empty) (compact.toVec counted) =
      .error (.document (.deserialize .data)) := by
    rw [Map.decode_eq_accept,show stock.serde.fromSlice _ = _ from hs]
    rfl
  refine ⟨hs,hh,by decide,?_⟩
  rw [Call.report,Map.perform_eq]
  exact Program.follows_map_done.mpr ⟨_,Procedure.transact_refused hd,rfl⟩

def described : Json :=
  Header.document ⟨1,"map","v1"⟩ "entries" (.object [("apples",.string "seven")])

theorem described_decodes : (Handle.map stock).PayloadDecodes described := ⟨_,rfl⟩

theorem newer_schema_reported :
    ∃ b result, (Call.report (ε := Empty) (.map stock .entries)).Follows
        [⟨.store (.get stock.location),.ok (some ⟨b,⟨"1"⟩⟩)⟩] (.done result) ∧
      result = .error ((Handle.map stock).incompatible (.schema "v2" "v1")) := by
  obtain ⟨b,hs⟩ : ∃ b, stock.serde.fromSlice b = .ok described :=
    ⟨_,compact.fromSlice_toVec (by decide)⟩
  have hh : Header.deserialize described = .ok ⟨1,"map","v1"⟩ :=
    Header.deserialize_document _ _ (by decide) (by decide) (by decide)
  have he : firstDifference ⟨1,"map","v1"⟩ (Handle.map stock).header =
      some (.schema "v2" "v1") := by decide
  obtain ⟨error,hd,-⟩ := Map.decode_of_difference (ε := Empty) hs hh he
  have hrun : (Call.report (ε := Empty) (.map stock .entries)).Follows
      [⟨.store (.get stock.location),.ok (some ⟨b,⟨"1"⟩⟩)⟩] (.done (.error (.inl error))) := by
    rw [Call.report,Map.perform_eq]
    exact Program.follows_map_done.mpr ⟨_,Procedure.transact_refused hd,rfl⟩
  refine ⟨b,_,hrun,
    (mismatch_reported_iff (t := .map stock) rfl rfl hs hh he ?_ ?_ hrun).mpr
      described_decodes⟩
  · exact ⟨_,List.mem_singleton_self _,_,_,rfl⟩
  · intro l r hx
    cases List.mem_singleton.mp hx
    exact ⟨_,rfl,rfl⟩

end Objsds
