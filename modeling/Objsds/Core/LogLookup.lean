import Objsds.Core.LogHistory

namespace Objsds

open Foundation

namespace Log

variable {ε V : Type} {log : Log V} {o : Object} {d : LogDocument V}

def Answers (ε : Type) (log : Log V) (op : Op V) (o : Object)
    (result : Except (Error ε) (Outcome V)) : Prop :=
  (log.perform op : Action ε _).Follows [⟨.store (.get log.location),.ok (some o)⟩] (.done result)

def Reads (ε : Type) (log : Log V) (o : Object) (d : LogDocument V) : Prop :=
  (log.read : Fallible ε (Error ε) _).run.Follows [⟨.store (.get log.location),.ok (some o)⟩]
    (.done (.ok (o.version,d)))

-- `append` when nobody is in the way: the snapshot is still current when it is replaced.
def Appends (ε : Type) (log : Log V) (value : V) (o : Object) (id : LogId) (o' : Object) : Prop :=
  (log.perform (.append value) : Action ε _).Follows
    [⟨.store (.get log.location),.ok (some o)⟩,⟨.nowV7,id⟩,
      ⟨.store (.replace log.location o.version o'.bytes),.replaced o'.version⟩]
    (.done (.ok (.appended id)))

theorem reads_iff_decode : log.Reads ε o d ↔ log.decode (ε := ε) o.bytes = .ok d := by
  rw [Reads,read_run,Program.follows_perform]
  simp only [List.cons_ne_nil,false_and,false_or,List.cons.injEq,Sigma.mk.injEq,heq_eq_eq,true_and]
  constructor
  · rintro ⟨r,h',⟨rfl,rfl⟩,hf⟩
    have hd := Program.done.inj (Program.follows_done.mp hf).2
    have hm := hd.symm
    simp only [Medium.snapshot,medium,Except.map] at hm
    split at hm
    · simp at hm
    · rename_i d₀ hdec
      obtain rfl := (Prod.mk.inj (Except.ok.inj hm)).2
      exact hdec
  · intro hd
    refine ⟨_,[],⟨rfl,rfl⟩,?_⟩
    simp only [Medium.snapshot,medium,hd,Except.map]
    exact .refl _

theorem reads_iff : log.Reads ε o d ↔ LogDocument.fromSlice log.serde log.codec o.bytes = .ok d ∧
    d.toHeader = ⟨Core.FORMAT_VERSION,"log",log.schema⟩ ∧
    d.records.Pairwise (fun r r' => r.id < r'.id) := by
  rw [reads_iff_decode,decode_eq_ok]
  exact Iff.rfl

theorem answers_of_decode {op : Op V} {plan : LogDocument V → Plan (LogDocument V) (Error ε) (Outcome V)}
    {result : Except (Error ε) (Outcome V)} (hp : procedure op = .transact plan)
    (hd : log.decode (ε := ε) o.bytes = .ok d) (hr : plan d = .respond result) :
    log.Answers ε op o result := by
  rw [Answers,perform_eq,hp]
  refine .step ?_
  rw [@Medium.resume_ok _ _ _ _ log.medium o d hd,hr]
  exact .refl _

theorem decode_of_answers {op : Op V} {plan : LogDocument V → Plan (LogDocument V) (Error ε) (Outcome V)}
    {x : Outcome V} (hp : procedure op = .transact plan) (h : log.Answers ε op o (.ok x)) :
    ∃ d, log.decode (ε := ε) o.bytes = .ok d := by
  cases hd : log.decode (ε := ε) o.bytes with
  | ok d => exact ⟨d,rfl⟩
  | error e =>
      have hanswer : log.Answers ε op o (.error e) := by
        rw [Answers,perform_eq,hp]
        refine .step ?_
        have hr : (log.medium (ε := ε)).resume plan (.ok (some o)) = .done (.error e) := by
          simp [Medium.resume,Medium.snapshot,medium,hd,Except.map]
        rw [hr]
        exact .refl _
      simpa using Program.done.inj (h.unique hanswer)

theorem appends_of_decode {value : V} {id : LogId} {b : Bytes}
    (hd : log.decode (ε := ε) o.bytes = .ok d)
    (hb : log.encode (ε := ε) (insertRecord d ⟨id,value⟩) = .ok b) (v : Version) :
    log.Appends ε value o id ⟨b,v⟩ := by
  rw [Appends,perform_eq]
  refine .step ?_
  rw [@Medium.resume_ok _ _ _ _ log.medium o d hd]
  refine .step ?_
  have hm : (log.medium (ε := ε)).encode (insertRecord d ⟨id,value⟩) = .ok b := hb
  simp only [Plan.program,hm]
  exact .step (.refl _)

theorem find_of_mem (hi : Increasing Record.id d.records) {r : Record V} (hr : r ∈ d.records) :
    d.records.find? (fun x => x.id = r.id) = some r := by
  cases hf : d.records.find? (fun x => x.id = r.id) with
  | none => simpa using List.find?_eq_none.mp hf r hr
  | some x =>
      have hx : x.id = r.id := by simpa using List.find?_some hf
      rw [hi.key_inj (List.mem_of_find?_eq_some hf) hr hx]

theorem find_of_absent {id : LogId} (h : ∀ r ∈ d.records, r.id ≠ id) :
    d.records.find? (fun x => x.id = id) = none := by
  refine List.find?_eq_none.mpr (fun r hr => ?_)
  simpa using h r hr

theorem filter_split (hi : Increasing Record.id d.records) (id : LogId) :
    d.records.filter (fun r => r.id ≤ id) ++ d.records.filter (fun r => id < r.id) = d.records := by
  generalize d.records = rs at hi
  induction rs with
  | nil => rfl
  | cons r rs ih =>
      obtain ⟨hr,hrs⟩ := List.pairwise_cons.mp hi
      by_cases hle : r.id ≤ id
      · simp only [List.filter_cons,hle,decide_true,if_true,List.cons_append,not_lt.mpr hle,
          decide_false,Bool.false_eq_true,if_false,ih hrs]
      · have hlt := not_le.mp hle
        have hnone : rs.filter (fun r => decide (r.id ≤ id)) = [] := by
          refine List.filter_eq_nil_iff.mpr (fun x hx => ?_)
          simpa using lt_trans hlt (hr x hx)
        have hall : rs.filter (fun r => decide (id < r.id)) = rs := by
          refine List.filter_eq_self.mpr (fun x hx => ?_)
          simpa using lt_trans hlt (hr x hx)
        simp [hle,hlt,hnone,hall]

theorem find_insertRecord {value : V} {id : LogId} (hi : Increasing Record.id d.records)
    (hnew : ∀ r ∈ d.records, r.id ≠ id) (j : LogId) :
    (insertRecord d ⟨id,value⟩).records.find? (fun r => r.id = j) =
      if j = id then some ⟨id,value⟩ else d.records.find? (fun r => r.id = j) := by
  obtain ⟨hinc,hperm⟩ := insertRecord_spec ⟨id,value⟩ hi hnew
  have hmem : ∀ r, r ∈ (insertRecord d ⟨id,value⟩).records ↔ r = ⟨id,value⟩ ∨ r ∈ d.records := by
    intro r
    rw [hperm.mem_iff,List.mem_cons]
  by_cases hj : j = id
  · subst hj
    rw [if_pos rfl]
    exact @find_of_mem _ (insertRecord d ⟨j,value⟩) hinc ⟨j,value⟩ ((hmem _).mpr (.inl rfl))
  · rw [if_neg hj]
    cases hf : d.records.find? (fun r => r.id = j) with
    | none =>
        refine find_of_absent (fun r hr => ?_)
        rcases (hmem r).mp hr with rfl | hr
        · exact Ne.symm hj
        · simpa using List.find?_eq_none.mp hf r hr
    | some x =>
        have hx : x.id = j := by simpa using List.find?_some hf
        subst hx
        exact find_of_mem hinc ((hmem x).mpr (.inr (List.mem_of_find?_eq_some hf)))

theorem decode_encode_iff {d : LogDocument V} {b : Bytes} (hc : log.codec.Faithful)
    (hh : d.toHeader = ⟨Core.FORMAT_VERSION,"log",log.schema⟩)
    (hi : Increasing Record.id d.records) (hb : log.encode (ε := ε) d = .ok b) :
    (∃ d', log.decode (ε := ε) b = .ok d') ↔ ∀ r ∈ d.records, log.codec.Fits 3 r.value := by
  constructor
  · rintro ⟨d',hd'⟩ r hr value hv
    obtain ⟨j,hj,rfl⟩ := except_map_eq_ok.mp (except_mapError_eq_ok.mp hb)
    obtain ⟨j',hj',-⟩ := except_bind_eq_ok.mp (decode_eq_ok.mp hd').1
    obtain ⟨-,hlimit⟩ := log.serde.fromSlice_toVec_inv hj'
    obtain ⟨value',hv',hdepth⟩ := LogDocument.serialize_levels hj hr
    obtain rfl := Except.ok.inj (hv.symm.trans hv')
    exact hdepth.trans hlimit
  · intro hfits
    obtain ⟨b',hb',hd⟩ := encode_readsBack (ε := ε)
      (fun r hr => hc.readsBack_iff.mpr (hfits r hr)) hh hi
    obtain rfl := Except.ok.inj (hb.symm.trans hb')
    exact ⟨d,hd⟩

theorem lookups_after_append {value : V} {id : LogId} {b : Bytes} {v : Version}
    (hd : log.decode (ε := ε) o.bytes = .ok d) (hnew : ∀ r ∈ d.records, r.id ≠ id)
    (hdec : log.decode (ε := ε) b = .ok (insertRecord d ⟨id,value⟩)) :
    log.Answers ε (.get id) ⟨b,v⟩ (.ok (.record (some ⟨id,value⟩))) ∧
      ∀ j found, j ≠ id → log.Answers ε (.get j) o (.ok (.record found)) →
        log.Answers ε (.get j) ⟨b,v⟩ (.ok (.record found)) := by
  obtain ⟨-,-,hi⟩ := decode_eq_ok.mp hd
  obtain ⟨hinc,-⟩ := insertRecord_spec ⟨id,value⟩ hi hnew
  constructor
  · have hl : lookup (insertRecord d ⟨id,value⟩) id = some ⟨id,value⟩ := by
      rw [lookup_eq hinc,find_insertRecord hi hnew,if_pos rfl]
    rw [← hl]
    exact @answers_of_decode ε V log ⟨b,v⟩ _ _ _ _ rfl hdec rfl
  · intro j found hj hfound
    have hbefore : found = lookup d j := by
      have hanswer := @answers_of_decode ε V log o d (.get j) _ _ rfl hd rfl
      simpa using Program.done.inj (hfound.unique hanswer)
    have hl : lookup (insertRecord d ⟨id,value⟩) j = found := by
      rw [hbefore,lookup_eq hinc,find_insertRecord hi hnew,if_neg hj,lookup_eq hi]
    rw [← hl]
    exact @answers_of_decode ε V log ⟨b,v⟩ _ _ _ _ rfl hdec rfl

theorem append_looked_up_iff {value : V} {id : LogId} {b : Bytes} {v : Version}
    (hc : log.codec.Faithful) (hd : log.decode (ε := ε) o.bytes = .ok d)
    (hnew : ∀ r ∈ d.records, r.id ≠ id)
    (hb : log.encode (ε := ε) (insertRecord d ⟨id,value⟩) = .ok b) :
    (log.Answers ε (.get id) ⟨b,v⟩ (.ok (.record (some ⟨id,value⟩))) ∧
      ∀ j found, j ≠ id → log.Answers ε (.get j) o (.ok (.record found)) →
        log.Answers ε (.get j) ⟨b,v⟩ (.ok (.record found))) ↔
      log.codec.Fits 3 value ∧ ∀ r ∈ d.records, log.codec.Fits 3 r.value := by
  obtain ⟨-,hhead,hi⟩ := decode_eq_ok.mp hd
  obtain ⟨hinc,hperm⟩ := insertRecord_spec ⟨id,value⟩ hi hnew
  have hall : (∀ r ∈ (insertRecord d ⟨id,value⟩).records, log.codec.Fits 3 r.value) ↔
      log.codec.Fits 3 value ∧ ∀ r ∈ d.records, log.codec.Fits 3 r.value := by
    simp only [hperm.mem_iff,List.forall_mem_cons]
  have hreads := @decode_encode_iff ε V log (insertRecord d ⟨id,value⟩) b hc hhead hinc hb
  rw [← hall,← hreads]
  constructor
  · rintro ⟨hget,-⟩
    exact decode_of_answers rfl hget
  · intro hread
    obtain ⟨b',hb',hdec⟩ := @encode_readsBack ε V log (insertRecord d ⟨id,value⟩)
      (fun r hr => hc.readsBack_iff.mpr (hreads.mp hread r hr)) hhead hinc
    obtain rfl := Except.ok.inj (hb.symm.trans hb')
    exact lookups_after_append hd hnew hdec

theorem log_lookups_filter (ε : Type) (log : Log V) (o : Object) :
    (∀ d, log.Reads ε o d ↔ LogDocument.fromSlice log.serde log.codec o.bytes = .ok d ∧
      d.toHeader = ⟨Core.FORMAT_VERSION,"log",log.schema⟩ ∧
      d.records.Pairwise (fun r r' => r.id < r'.id)) ∧
    ∀ d, log.Reads ε o d →
      log.Answers ε .records o (.ok (.records d.records)) ∧
      (∀ id, (∃ found, log.Answers ε (.get id) o (.ok (.record found)) ∧
          (∀ r ∈ d.records, r.id = id → found = some r) ∧
          ((∀ r ∈ d.records, r.id ≠ id) → found = none)) ∧
        ∃ later, log.Answers ε (.recordsAfter id) o (.ok (.records later)) ∧
          later = d.records.filter (fun r => id < r.id) ∧
          d.records.filter (fun r => r.id ≤ id) ++ later = d.records) ∧
      (log.codec.Faithful → ∀ value id, (∀ r ∈ d.records, r.id ≠ id) →
        ∃ b, ∀ v, log.Appends ε value o id ⟨b,v⟩ ∧
          ((log.Answers ε (.get id) ⟨b,v⟩ (.ok (.record (some ⟨id,value⟩))) ∧
            ∀ j found, j ≠ id → log.Answers ε (.get j) o (.ok (.record found)) →
              log.Answers ε (.get j) ⟨b,v⟩ (.ok (.record found))) ↔
            log.codec.Fits 3 value ∧ ∀ r ∈ d.records, log.codec.Fits 3 r.value)) := by
  refine ⟨fun _ => reads_iff,fun d hread => ?_⟩
  have hd := reads_iff_decode.mp hread
  obtain ⟨-,-,hi⟩ := decode_eq_ok.mp hd
  refine ⟨answers_of_decode rfl hd rfl,fun id => ⟨?_,?_⟩,?_⟩
  · refine ⟨_,answers_of_decode rfl hd rfl,?_,?_⟩
    · rintro r hr rfl
      rw [lookup_eq hi,find_of_mem hi hr]
    · intro hne
      rw [lookup_eq hi,find_of_absent hne]
  · refine ⟨_,answers_of_decode rfl hd rfl,after_eq hi id,?_⟩
    rw [after_eq hi]
    exact filter_split hi id
  · intro hc value id hnew
    obtain ⟨b,hb⟩ := encode_total (ε := ε) hc (insertRecord d ⟨id,value⟩)
    exact ⟨b,fun v => ⟨appends_of_decode hd hb v,append_looked_up_iff hc hd hnew hb⟩⟩

section Deep

def notes : Log Value := ⟨⟨"shop/logs/notes.json",by decide⟩,"v1",valueCodec,compact⟩

-- A value in 125 arrays is accepted, and the log is not read again.
theorem deep_append_unreadable : ∃ (o : Object) (d : LogDocument Value) (value : Value) (b : Bytes),
    notes.Reads Empty o d ∧ notes.Appends Empty value o 5 ⟨b,⟨"2"⟩⟩ ∧
      ∀ j found, ¬ notes.Answers Empty (.get j) ⟨b,⟨"2"⟩⟩ (.ok found) := by
  let d : LogDocument Value := ⟨⟨Core.FORMAT_VERSION,"log","v1"⟩,[]⟩
  let value : Value := ⟨nested 125,nested_isValue 125⟩
  obtain ⟨b₀,-,hd⟩ : ∃ b, notes.encode (ε := Empty) d = .ok b ∧ notes.decode (ε := Empty) b = .ok d :=
    encode_readsBack (by simp [d]) rfl .nil
  obtain ⟨b,hb⟩ := @encode_total Empty Value notes valueCodec_faithful (insertRecord d ⟨5,value⟩)
  refine ⟨⟨b₀,⟨"1"⟩⟩,d,value,b,reads_iff_decode.mpr hd,appends_of_decode hd hb _,fun j found hget => ?_⟩
  obtain ⟨hinc,hperm⟩ := insertRecord_spec ⟨5,value⟩ (d := d) .nil (by simp [d])
  have hfits := (@decode_encode_iff Empty Value notes (insertRecord d ⟨5,value⟩) b valueCodec_faithful
    rfl hinc hb).mp (decode_of_answers rfl hget) ⟨5,value⟩ (hperm.mem_iff.mpr (List.mem_cons_self ..)) _ rfl
  simp [value,nested_depth,recursionLimit] at hfits

end Deep

theorem audit_lookup : ∃ b₀ b, ∃ v : Version, audit.Appends Empty "b" ⟨b₀,v⟩ 5 ⟨b,v⟩ ∧
    audit.Answers Empty (.get 5) ⟨b,v⟩ (.ok (.record (some ⟨5,"b"⟩))) ∧
    audit.Answers Empty (.get 7) ⟨b,v⟩ (.ok (.record (some ⟨7,"a"⟩))) := by
  let d : LogDocument String := ⟨⟨Core.FORMAT_VERSION,"log","v1"⟩,[⟨7,"a"⟩]⟩
  have hfits : ∀ s, audit.codec.Fits 3 s := fun s =>
    textCodec_faithful.readsBack_iff.mp (textCodec_roundTrips (by decide) s)
  obtain ⟨b₀,-,hd⟩ : ∃ b, audit.encode (ε := Empty) d = .ok b ∧ audit.decode (ε := Empty) b = .ok d :=
    encode_roundTrip (textCodec_roundTrips (by decide)) rfl (List.pairwise_singleton ..)
  have hread : audit.Reads Empty ⟨b₀,⟨"1"⟩⟩ d := reads_iff_decode.mpr hd
  obtain ⟨-,hid,happend⟩ := (log_lookups_filter Empty audit ⟨b₀,⟨"1"⟩⟩).2 d hread
  obtain ⟨b,hb⟩ := happend textCodec_faithful "b" 5 (by simp [d])
  obtain ⟨happ,hiff⟩ := hb ⟨"1"⟩
  obtain ⟨hget,hothers⟩ := hiff.mpr ⟨hfits _,fun _ _ => hfits _⟩
  obtain ⟨found,hseven,hfound,-⟩ := (hid 7).1
  obtain rfl := hfound ⟨7,"a"⟩ (by simp [d]) rfl
  exact ⟨b₀,b,⟨"1"⟩,happ,hget,hothers 7 _ (by decide) hseven⟩

end Log

end Objsds
