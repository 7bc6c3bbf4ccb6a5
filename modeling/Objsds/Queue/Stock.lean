import Objsds.Json.Compact
import Objsds.Queue.Changes
import Objsds.Structure.Uncontended

namespace Objsds

open Foundation

namespace Queue

variable {ε V : Type}

def publication (l : Location) (ops : ℕ → Op V) (past : Trace (Reply ε))
    (ev : Event (Reply ε)) : Option (MessageId × V) :=
  match ops ev.call, stores l ev with
  | .publish value, some _ => (identifiers (Trace.of ev.call past)).head?.map (·,value)
  | _, _ => none

def acknowledgement (l : Location) (ops : ℕ → Op V) (_ : Trace (Reply ε))
    (ev : Event (Reply ε)) : Option MessageId :=
  match ops ev.call, stores l ev with
  | .ack id _, some _ => some id
  | _, _ => none

def published (l : Location) (ops : ℕ → Op V) (tr : Trace (Reply ε)) : List (MessageId × V) :=
  Trace.collect (publication l ops) [] tr

def acknowledged (l : Location) (ops : ℕ → Op V) (tr : Trace (Reply ε)) : List MessageId :=
  Trace.collect (acknowledgement l ops) [] tr

section Ledger

variable {l : Location} {ops : ℕ → Op V} {tr : Trace (Reply ε)} {ev : Event (Reply ε)}

theorem published_snoc : published l ops (tr ++ [ev]) =
    published l ops tr ++ (publication l ops tr ev).toList :=
  Trace.collect_snoc tr ev

theorem acknowledged_snoc : acknowledged l ops (tr ++ [ev]) =
    acknowledged l ops tr ++ (acknowledgement l ops tr ev).toList :=
  Trace.collect_snoc tr ev

theorem publication_quiet (hw : stores l ev = none) : publication l ops tr ev = none := by
  unfold publication
  rw [hw]
  split <;> simp_all

theorem acknowledgement_quiet (hw : stores l ev = none) : acknowledgement l ops tr ev = none := by
  unfold acknowledgement
  rw [hw]
  split <;> simp_all

theorem published_fresh (hfresh : (issued tr).Nodup) {i : ℕ} {id : Uuid}
    (hid : id ∈ identifiers (Trace.of i tr)) (hreads : ∀ x ∈ Trace.of i tr, isRead x = true) :
    id ∉ (published l ops tr).map Prod.fst := by
  intro hmem
  obtain ⟨⟨id',value⟩,hp,rfl⟩ := List.mem_map.mp hmem
  obtain ⟨tr₁,ev,tr₂,rfl,hc⟩ := Trace.mem_collect.mp hp
  unfold publication at hc
  split at hc
  · rename_i value' o _ hw
    obtain ⟨id',hh,he⟩ := Option.map_eq_some_iff.mp hc
    obtain ⟨rfl,rfl⟩ := Prod.mk.inj he
    exact identifier_fresh hfresh hreads hw (List.mem_of_head? hh) hid
  · simp at hc

structure Ledger (l : Location) (ops : ℕ → Op V) (tr : Trace (Reply ε)) : Prop where
  ids : ((published l ops tr).map Prod.fst).Nodup
  once : (acknowledged l ops tr).Nodup
  known : ∀ id ∈ acknowledged l ops tr, id ∈ (published l ops tr).map Prod.fst

structure Stocked (codec : Codec V) (l : Location) (ops : ℕ → Op V) (tr : Trace (Reply ε))
    (d : Document V) : Prop where
  members : ∀ id, id ∈ d.messages.map Message.id ↔
    id ∈ (published l ops tr).map Prod.fst ∧ id ∉ acknowledged l ops tr
  values : codec.RoundTrips 3 → ∀ m ∈ d.messages, (m.id,m.value) ∈ published l ops tr

theorem Ledger.quiet (h : Ledger l ops tr) (hw : stores l ev = none) :
    Ledger l ops (tr ++ [ev]) := by
  have hp : published l ops (tr ++ [ev]) = published l ops tr := by
    simp [published_snoc,publication_quiet hw]
  have ha : acknowledged l ops (tr ++ [ev]) = acknowledged l ops tr := by
    simp [acknowledged_snoc,acknowledgement_quiet hw]
  exact ⟨hp ▸ h.ids,ha ▸ h.once,hp ▸ ha ▸ h.known⟩

theorem Stocked.quiet {codec : Codec V} {d : Document V} (h : Stocked codec l ops tr d)
    (hw : stores l ev = none) : Stocked codec l ops (tr ++ [ev]) d := by
  have hp : published l ops (tr ++ [ev]) = published l ops tr := by
    simp [published_snoc,publication_quiet hw]
  have ha : acknowledged l ops (tr ++ [ev]) = acknowledged l ops tr := by
    simp [acknowledged_snoc,acknowledgement_quiet hw]
  exact ⟨hp ▸ ha ▸ h.members,hp ▸ h.values⟩

variable {codec : Codec V} {d : Document V} {o : Object}

theorem commit_publish {value : V} {id : MessageId} (hl : Ledger l ops tr)
    (hs : Stocked codec l ops tr d) (hi : Increasing Message.id d.messages)
    (hnew : id ∉ (published l ops tr).map Prod.fst) (hw : stores l ev = some o)
    (hop : ops ev.call = .publish value) (hids : identifiers (Trace.of ev.call tr) = [id]) :
    Increasing Message.id (insertMessage d ⟨id,value,0,none⟩).messages ∧
      Ledger l ops (tr ++ [ev]) ∧
      Stocked codec l ops (tr ++ [ev]) (insertMessage d ⟨id,value,0,none⟩) := by
  have hp : published l ops (tr ++ [ev]) = published l ops tr ++ [(id,value)] := by
    simp [published_snoc,publication,hw,hop,hids]
  have ha : acknowledged l ops (tr ++ [ev]) = acknowledged l ops tr := by
    simp [acknowledged_snoc,acknowledgement,hw,hop]
  have hstock : id ∉ d.messages.map Message.id := fun h => hnew ((hs.members id).mp h).1
  have hack : id ∉ acknowledged l ops tr := fun h => hnew (hl.known id h)
  obtain ⟨hinc,before,rest,hd,hd'⟩ := insertMessage_spec ⟨id,value,0,none⟩ hi
    (fun m hm he => hstock (List.mem_map.mpr ⟨m,hm,he⟩))
  refine ⟨hinc,⟨?_,ha ▸ hl.once,?_⟩,⟨?_,?_⟩⟩
  · rw [hp,List.map_append]
    exact List.nodup_append.mpr ⟨hl.ids,by simp,fun a ha b hb => by
      rw [List.map_singleton,List.mem_singleton] at hb
      exact hb ▸ ne_of_mem_of_not_mem ha hnew⟩
  · intro x hx
    rw [ha] at hx
    rw [hp,List.map_append]
    exact List.mem_append_left _ (hl.known x hx)
  · intro x
    have hm := hs.members x
    rw [hd] at hm
    rw [hd',hp,ha]
    simp only [List.map_append,List.map_cons,List.map_nil,List.mem_append,List.mem_cons,
      List.not_mem_nil,or_false] at hm ⊢
    by_cases hx : x = id
    · subst hx
      simp [hack]
    · simp only [hx,false_or,or_false]
      exact hm
  · intro hrt m hm
    rw [hp]
    rw [hd'] at hm
    rcases List.mem_append.mp hm with hm | hm
    · exact List.mem_append_left _ (hs.values hrt m (by simp [hd,hm]))
    · rcases List.mem_cons.mp hm with rfl | hm
      · simp
      · exact List.mem_append_left _ (hs.values hrt m (by simp [hd,hm]))

theorem commit_claim {leaseDuration : Duration} {before rest : List (Message V)}
    {m m' : Message V} (hl : Ledger l ops tr) (hs : Stocked codec l ops tr d)
    (hi : Increasing Message.id d.messages) (hop : ops ev.call = .claim leaseDuration)
    (hd : d.messages = before ++ m :: rest) (hid : m'.id = m.id) (hvalue : m'.value = m.value) :
    Increasing Message.id (before ++ m' :: rest) ∧ Ledger l ops (tr ++ [ev]) ∧
      Stocked codec l ops (tr ++ [ev]) { d with messages := before ++ m' :: rest } := by
  have hp : published l ops (tr ++ [ev]) = published l ops tr := by
    simp [published_snoc,publication,hop]
  have ha : acknowledged l ops (tr ++ [ev]) = acknowledged l ops tr := by
    simp [acknowledged_snoc,acknowledgement,hop]
  refine ⟨Increasing.replace_key (hd ▸ hi) hid,⟨hp ▸ hl.ids,ha ▸ hl.once,hp ▸ ha ▸ hl.known⟩,?_,?_⟩
  · intro x
    have hm := hs.members x
    rw [hd] at hm
    rw [hp,ha]
    simpa [hid] using hm
  · intro hrt x hx
    rw [hp]
    rcases List.mem_append.mp hx with hx | hx
    · exact hs.values hrt x (by simp [hd,hx])
    · rcases List.mem_cons.mp hx with rfl | hx
      · rw [hid,hvalue]
        exact hs.values hrt m (by simp [hd])
      · exact hs.values hrt x (by simp [hd,hx])

theorem commit_ack {token : LeaseToken} {before rest : List (Message V)} {m : Message V}
    (hl : Ledger l ops tr) (hs : Stocked codec l ops tr d) (hi : Increasing Message.id d.messages)
    (hw : stores l ev = some o) (hop : ops ev.call = .ack m.id token)
    (hd : d.messages = before ++ m :: rest) :
    Increasing Message.id (before ++ rest) ∧ Ledger l ops (tr ++ [ev]) ∧
      Stocked codec l ops (tr ++ [ev]) { d with messages := before ++ rest } := by
  have hp : published l ops (tr ++ [ev]) = published l ops tr := by
    simp [published_snoc,publication,hop]
  have ha : acknowledged l ops (tr ++ [ev]) = acknowledged l ops tr ++ [m.id] := by
    simp [acknowledged_snoc,acknowledgement,hop,hw]
  have hmem := (hs.members m.id).mp (by simp [hd])
  have hsub : (before ++ rest).Sublist d.messages := by
    rw [hd]
    exact (List.sublist_cons_self m rest).append_left before
  have hne := Increasing.others_ne (hd ▸ hi)
  refine ⟨hi.sublist hsub,⟨hp ▸ hl.ids,?_,?_⟩,?_,?_⟩
  · rw [ha]
    exact List.nodup_append.mpr ⟨hl.once,by simp,fun a hx b hb =>
      List.mem_singleton.mp hb ▸ ne_of_mem_of_not_mem hx hmem.2⟩
  · intro x hx
    rw [ha] at hx
    rw [hp]
    rcases List.mem_append.mp hx with hx | hx
    · exact hl.known x hx
    · exact List.mem_singleton.mp hx ▸ hmem.1
  · intro x
    have hx := hs.members x
    rw [hp,ha,List.mem_append,List.mem_singleton,not_or,← and_assoc,← hx,hd]
    constructor
    · intro hin
      obtain ⟨y,hy,rfl⟩ := List.mem_map.mp hin
      refine ⟨List.mem_map_of_mem ?_,hne y hy⟩
      exact (List.sublist_cons_self m rest).append_left before |>.subset hy
    · rintro ⟨hin,hxm⟩
      obtain ⟨y,hy,rfl⟩ := List.mem_map.mp hin
      refine List.mem_map_of_mem ?_
      rcases List.mem_append.mp hy with hy | hy
      · exact List.mem_append_left _ hy
      · rcases List.mem_cons.mp hy with rfl | hy
        · exact absurd rfl hxm
        · exact List.mem_append_right _ hy
  · intro hrt x hx
    rw [hp]
    exact hs.values hrt x (hsub.subset hx)

theorem Change.ledger {d' : Document V} {nows : List UInt64} {reply : Version → Outcome V}
    (hc : Change d (ops ev.call) nows (identifiers (Trace.of ev.call tr)) d' reply)
    (hl : Ledger l ops tr) (hs : Stocked codec l ops tr d) (hi : Increasing Message.id d.messages)
    (hnew : ∀ id ∈ identifiers (Trace.of ev.call tr), id ∉ (published l ops tr).map Prod.fst)
    (hw : stores l ev = some o) :
    d'.toHeader = d.toHeader ∧ Increasing Message.id d'.messages ∧ Ledger l ops (tr ++ [ev]) ∧
      Stocked codec l ops (tr ++ [ev]) d' := by
  generalize hop : ops ev.call = op at hc
  generalize hids : identifiers (Trace.of ev.call tr) = ids at hc hnew
  cases hc with
  | publish value id =>
      exact ⟨rfl,commit_publish hl hs hi (hnew id (by simp)) hw hop hids⟩
  | claim leaseDuration leaseMillis now deadline token before rest message attempts hpos hexp hd =>
      exact ⟨rfl,commit_claim hl hs hi hop hd rfl rfl⟩
  | ack now before rest message lease hd => exact ⟨rfl,commit_ack hl hs hi hw hop hd⟩

theorem Stocked.reload {d' : Document V} (hs : Stocked codec l ops tr d)
    (ht : d'.messages.map Message.ticket = d.messages.map Message.ticket)
    (hrt : codec.RoundTrips 3 → d' = d) : Stocked codec l ops tr d' := by
  have hids : d'.messages.map Message.id = d.messages.map Message.id := by
    have := congrArg (List.map Ticket.id) ht
    rwa [List.map_map,List.map_map] at this
  exact ⟨fun id => hids ▸ hs.members id,fun h => hrt h ▸ hs.values h⟩

end Ledger

structure History (queue : Queue V) (S : ObjectStore ε) (ops : ℕ → Op V) (s : S.State)
    (tr : Trace (Reply ε)) (c : Config S.State (Reply ε) (Except (Error ε) (Outcome V))) :
    Prop where
  created : ∃ o, S.objects s queue.location = some o ∧ queue.emptyBytes (ε := ε) = .ok o.bytes
  run : Run S.Env ⟨s,fun i => queue.perform (ops i)⟩ tr c
  fresh : (issued tr).Nodup
  coherent : Coherent (held (S.objects s queue.location) queue.location tr)

section Runs

variable {S : ObjectStore ε} {queue : Queue V} {ops : ℕ → Op V} {s : S.State}
  {tr : Trace (Reply ε)} {c : Config S.State (Reply ε) (Except (Error ε) (Outcome V))}

theorem launch_eq (queue : Queue V) (S : ObjectStore ε) (ops : ℕ → Op V) (s : S.State) :
    (⟨s,fun i => queue.perform (ops i)⟩ : Config S.State (Reply ε) _) =
      launch S queue.medium (fun i => procedure (ops i)) s := by
  simp only [launch,perform_eq]

theorem History.restrict {tr₁ tr₂ : Trace (Reply ε)} (h : History queue S ops s (tr₁ ++ tr₂) c)
    {c₁ : Config S.State (Reply ε) (Except (Error ε) (Outcome V))}
    (hr : Run S.Env ⟨s,fun i => queue.perform (ops i)⟩ tr₁ c₁) : History queue S ops s tr₁ c₁ :=
  ⟨h.created,hr,issued_nodup_of_append h.fresh,h.coherent.of_append⟩

structure Account (queue : Queue V) (ops : ℕ → Op V) (tr : Trace (Reply ε))
    (r : Except (Error ε) (Document V)) : Prop where
  ledger : Ledger queue.location ops tr
  stocked : ∀ d, r = .ok d → Stocked queue.codec queue.location ops tr d
  readable : queue.codec.RoundTrips 3 → ∃ d, r = .ok d

theorem Account.quiet {ev : Event (Reply ε)} {r : Except (Error ε) (Document V)}
    (h : Account queue ops tr r) (hw : stores queue.location ev = none) :
    Account queue ops (tr ++ [ev]) r :=
  ⟨h.ledger.quiet hw,fun d hd => (h.stocked d hd).quiet hw,h.readable⟩

theorem Account.empty (ops : ℕ → Op V) {b : Bytes} (hb : queue.emptyBytes (ε := ε) = .ok b) :
    Account queue ops ([] : Trace (Reply ε)) (queue.decode (ε := ε) b) := by
  refine ⟨⟨.nil,.nil,by simp [acknowledged,Trace.collect]⟩,?_,?_⟩
  · intro d hd
    have ht := decode_reload hb hd
    have hnil : d.messages = [] := by simpa using ht
    exact ⟨by simp [hnil,published,Trace.collect],by simp [hnil]⟩
  · intro hrt
    obtain ⟨b',hb',hd⟩ := encode_roundTrip (ε := ε) (d := ⟨⟨FORMAT_VERSION,KIND,queue.schema⟩,[]⟩)
      hrt rfl .nil
    obtain rfl : b = b' := Except.ok.inj (hb.symm.trans hb')
    exact ⟨_,hd⟩

theorem Account.commit {ev : Event (Reply ε)} {o o' : Object} {d d' : Document V}
    {reply : Version → Outcome V} {r : ReplaceReply ε} (h : Account queue ops tr (.ok d))
    (hfresh : (issued tr).Nodup) (hd : queue.decode (ε := ε) o.bytes = .ok d)
    (hw : stores queue.location ev = some o')
    (hc : Committed queue.medium (procedure (ops ev.call)) (Trace.of ev.call tr) ev d d' reply r)
    (he : queue.encode (ε := ε) d' = .ok o'.bytes) :
    Account queue ops (tr ++ [ev]) (queue.decode (ε := ε) o'.bytes) := by
  obtain ⟨o₁,hh,b,hb,-⟩ := hc.holds
  obtain ⟨-,hhead,hinc⟩ := decode_eq_ok.mp hd
  obtain ⟨hh',hinc',hl,hs⟩ := (commit_inv hinc hh.planned).ledger h.ledger (h.stocked d rfl) hinc
    (fun id hid => published_fresh hfresh hid hh.reads) hw
  have hrt : queue.codec.RoundTrips 3 → queue.decode (ε := ε) o'.bytes = .ok d' := fun hrt => by
    obtain ⟨b',hb',hdec⟩ := encode_roundTrip (ε := ε) hrt (hh'.trans hhead) hinc'
    obtain rfl : o'.bytes = b' := Except.ok.inj (he.symm.trans hb')
    exact hdec
  refine ⟨hl,?_,fun h => ⟨d',hrt h⟩⟩
  intro d'' hd''
  exact hs.reload (decode_reload he hd'')
    (fun h => Except.ok.inj (hd''.symm.trans (hrt h)))

theorem History.account (h : History queue S ops s tr c) :
    ∃ o, S.objects c.world queue.location = some o ∧
      Account queue ops tr (queue.decode (ε := ε) o.bytes) := by
  obtain ⟨o₀,ho₀,hb₀⟩ := h.created
  have hrun := h.run
  rw [launch_eq] at hrun
  exact invariant_rule (fun tr => (issued tr).Nodup) (fun tr _ r => Account queue ops tr r)
    (fun ha => issued_nodup_of_append ha) ho₀ (Account.empty ops hb₀)
    (fun _ _ _ _ hw hi => hi.quiet hw)
    (fun _ _ ha hd hw hc he _ _ hi => hi.commit (issued_nodup_of_append ha) hd hw hc he)
    hrun h.fresh h.coherent

theorem Stocked.length {codec : Codec V} {l : Location} {d : Document V} (hl : Ledger l ops tr)
    (hs : Stocked codec l ops tr d) (hi : Increasing Message.id d.messages) :
    d.messages.length + (acknowledged l ops tr).length = (published l ops tr).length := by
  have hnodup : (d.messages.map Message.id ++ acknowledged l ops tr).Nodup := by
    refine List.nodup_append.mpr ⟨hi.nodup_keys,hl.once,?_⟩
    intro a ha b hb
    exact (ne_of_mem_of_not_mem hb ((hs.members a).mp ha).2).symm
  have hperm : (d.messages.map Message.id ++ acknowledged l ops tr).Perm
      ((published l ops tr).map Prod.fst) := by
    refine (List.perm_ext_iff_of_nodup hnodup hl.ids).mpr (fun id => ?_)
    rw [List.mem_append,hs.members]
    constructor
    · rintro (h | h)
      · exact h.1
      · exact hl.known id h
    · intro h
      by_cases ha : id ∈ acknowledged l ops tr
      · exact .inr ha
      · exact .inl ⟨h,ha⟩
  simpa using hperm.length_eq

theorem Stocked.pairs {codec : Codec V} {l : Location} {d : Document V}
    (hrt : codec.RoundTrips 3) (hl : Ledger l ops tr) (hs : Stocked codec l ops tr d)
    (id : MessageId) (value : V) :
    (∃ m ∈ d.messages, m.id = id ∧ m.value = value) ↔
      (id,value) ∈ published l ops tr ∧ id ∉ acknowledged l ops tr := by
  constructor
  · rintro ⟨m,hm,rfl,rfl⟩
    exact ⟨hs.values hrt m hm,((hs.members m.id).mp (List.mem_map_of_mem hm)).2⟩
  · rintro ⟨hp,ha⟩
    obtain ⟨m,hm,rfl⟩ := List.mem_map.mp ((hs.members id).mpr ⟨List.mem_map_of_mem hp,ha⟩)
    have he : (m.id,m.value) = (m.id,value) :=
      List.inj_on_of_nodup_map hl.ids (hs.values hrt m hm) hp rfl
    exact ⟨m,hm,rfl,congrArg Prod.snd he⟩

structure Snapshot (queue : Queue V) (S : ObjectStore ε) (s : S.State)
    (messages : List (Message V)) : Prop where
  stored : ∃ o d, S.objects s queue.location = some o ∧ queue.decode (ε := ε) o.bytes = .ok d ∧
    d.messages = messages

theorem Snapshot.unique {w : S.State} {xs ys : List (Message V)} (hx : Snapshot queue S w xs)
    (hy : Snapshot queue S w ys) : xs = ys := by
  obtain ⟨o,d,ho,hd,rfl⟩ := hx.stored
  obtain ⟨o',d',ho',hd',rfl⟩ := hy.stored
  obtain rfl : o = o' := Option.some.inj (ho.symm.trans ho')
  rw [Except.ok.inj (hd.symm.trans hd')]

structure Exact (queue : Queue V) (ops : ℕ → Op V) (tr : Trace (Reply ε))
    (messages : List (Message V)) : Prop where
  increasing : Increasing Message.id messages
  exactly : ∀ id value, (∃ m ∈ messages, m.id = id ∧ m.value = value) ↔
    (id,value) ∈ published queue.location ops tr ∧ id ∉ acknowledged queue.location ops tr
  length : messages.length + (acknowledged queue.location ops tr).length =
    (published queue.location ops tr).length

theorem History.exact (hrt : queue.codec.RoundTrips 3) (h : History queue S ops s tr c) :
    ∃ messages, Snapshot queue S c.world messages ∧ Exact queue ops tr messages := by
  obtain ⟨o,ho,ha⟩ := h.account
  obtain ⟨d,hd⟩ := ha.readable hrt
  have hs := ha.stocked d hd
  have hi := (decode_eq_ok.mp hd).2.2
  exact ⟨d.messages,⟨o,d,ho,hd,rfl⟩,hi,hs.pairs hrt ha.ledger,Stocked.length ha.ledger hs hi⟩

theorem History.errors (hrt : queue.codec.RoundTrips 3) (h : History queue S ops s tr c) {i : ℕ}
    {e : Error ε} (hd : c.calls i = .done (.error e)) :
    (∃ source, e = .store source) ∨ (∃ expected observed, e = .conflict expected observed) ∨
      e = .attemptOverflow ∨ e = .invalidLeaseDuration := by
  have hrun := h.run
  rw [launch_eq] at hrun
  have henc : ∀ d, ∃ b, queue.encode (ε := ε) d = .ok b := fun d => by
    obtain ⟨j,hj,-⟩ := Document.serialize_roundTrip queue.serde d (fun m _ => hrt m.value)
    exact ⟨_,by rw [encode,hj]; rfl⟩
  have hread : ∀ tr₁ tr₂ c₁, tr = tr₁ ++ tr₂ →
      Run S.Env (launch S queue.medium (fun i => procedure (ops i)) s) tr₁ c₁ →
      ∃ o d, S.objects c₁.world queue.location = some o ∧
        queue.decode (ε := ε) o.bytes = .ok d := by
    rintro tr₁ tr₂ c₁ rfl hr
    rw [← launch_eq] at hr
    obtain ⟨o,ho,ha⟩ := (h.restrict hr).account
    obtain ⟨d,hdec⟩ := ha.readable hrt
    exact ⟨o,d,ho,hdec⟩
  obtain ⟨source,he,-⟩ | hc | ⟨o,d,hh⟩ | hr := Run.error_inv hrun hread henc hd
  · exact .inl ⟨source,he⟩
  · exact .inr (.inl hc)
  · obtain he | ⟨outcome,he,-⟩ := respond_inv hh.planned
    · exact .inr (.inr (.inl (Except.error.inj he)))
    · simp at he
  · exact .inr (.inr (.inr (Except.error.inj (reject_error hr))))

theorem History.len (h : History queue S ops s tr c) {i n : ℕ} (hop : ops i = .len)
    (hd : c.calls i = .done (.ok (.len n))) :
    ∃ o tr₁ tr₂ c₁ messages, tr = tr₁ ++ ⟨i,.store (.get queue.location),.ok (some o)⟩ :: tr₂ ∧
      Run S.Env ⟨s,fun i => queue.perform (ops i)⟩ tr₁ c₁ ∧
      Snapshot queue S c₁.world messages ∧ n = messages.length := by
  have hrun := h.run
  rw [launch_eq] at hrun ⊢
  obtain ⟨o,d,tr₁,tr₂,c₁,htr,hr,ho,hdec,he⟩ := Run.read_result hrun
    (f := fun d => .ok (.len d.messages.length)) (by rw [hop]; rfl) hd
  exact ⟨o,tr₁,tr₂,c₁,d.messages,htr,hr,⟨o,d,ho,hdec,rfl⟩,by simpa using he.symm⟩

end Runs

section Solitary

variable {s : Memory.State} {o : Object} {b : Bytes} {d d' : Document V}

theorem solo_publish (queue : Queue V) (i : ℕ) {value : V} (id : MessageId)
    (ho : s.objects queue.location = some o) (hd : queue.decode (ε := Empty) o.bytes = .ok d)
    (hb : queue.encode (ε := Empty) (insertMessage d ⟨id,value,0,none⟩) = .ok b) :
    Solo Memory.store.Env i s (queue.perform (.publish value))
      [⟨.store (.get queue.location),.ok (some o)⟩,⟨.nowV7,id⟩,
        ⟨.store (.replace queue.location o.version b),.replaced s.version.1⟩]
      (replaced s queue.location b) (.ok (.published id)) := by
  rw [perform_eq]
  exact memory_transact (m := queue.medium) ho hd (memory_generate id (memory_commit ho hb))

theorem solo_claim (queue : Queue V) (i : ℕ) {lease : Duration} {millis now deadline : UInt64}
    (token : LeaseToken) {claim : Claim V} {next : Uuid → Plan (Document V) (Error Empty) (Outcome V)}
    (ho : s.objects queue.location = some o) (hd : queue.decode (ε := Empty) o.bytes = .ok d)
    (hlease : (u64TryFrom lease.asMillis).filter (· > 0) = some millis)
    (hadd : checkedAdd64 now millis = some deadline)
    (hplan : claimPlan now deadline d = .generate next)
    (hnext : next token = .commit d' (fun _ => .claimed (some claim)))
    (hb : queue.encode (ε := Empty) d' = .ok b) :
    Solo Memory.store.Env i s (queue.perform (.claim lease))
      [⟨.nowMillis,now⟩,⟨.store (.get queue.location),.ok (some o)⟩,⟨.nowV7,token⟩,
        ⟨.store (.replace queue.location o.version b),.replaced s.version.1⟩]
      (replaced s queue.location b) (.ok (.claimed (some claim))) := by
  obtain ⟨after,hp,ha⟩ := procedure_claim (ε := Empty) (V := V) hlease hadd
  rw [perform_eq,hp]
  refine memory_clock now ?_
  rw [ha]
  refine memory_transact (m := queue.medium) ho hd ?_
  rw [hplan]
  refine memory_generate token ?_
  rw [hnext]
  exact memory_commit ho hb

end Solitary

def jobs : Queue String := ⟨⟨"shop/queues/jobs.json",by decide⟩,"v1",textCodec,compact⟩

-- Two messages are published; the older one is claimed, claimed again once its lease has run out,
-- and acknowledged with the token of its second lease.
def shift : ℕ → Op String
  | 0 => .publish "a"
  | 1 => .publish "b"
  | 2 | 3 => .claim ⟨1,0⟩
  | 4 => .ack 5 9
  | _ => .len

theorem shift_history : ∃ (s : Memory.State) (tr : Trace (Reply Empty))
    (c : Config Memory.store.State (Reply Empty) (Except (Error Empty) (Outcome String))),
    History jobs Memory.store shift s tr c ∧
      Snapshot jobs Memory.store c.world [⟨6,"b",0,none⟩] ∧
      c.calls 2 = .done (.ok (.claimed (some ⟨5,"a",7,1,1010⟩))) ∧
      c.calls 3 = .done (.ok (.claimed (some ⟨5,"a",9,2,2010⟩))) ∧
      c.calls 4 = .done (.ok (.ack .acknowledged)) := by
  have hrt : jobs.codec.RoundTrips 3 := textCodec_roundTrips (by decide)
  have hdoc : ∀ messages : List (Message String), Increasing Message.id messages →
      ∃ b, jobs.encode (ε := Empty) ⟨⟨FORMAT_VERSION,KIND,"v1"⟩,messages⟩ = .ok b ∧
        jobs.decode (ε := Empty) b = .ok ⟨⟨FORMAT_VERSION,KIND,"v1"⟩,messages⟩ :=
    fun messages hi => encode_roundTrip hrt rfl hi
  have hpair : ∀ attempts lease, Increasing Message.id
      ([⟨5,"a",attempts,lease⟩,⟨6,"b",0,none⟩] : List (Message String)) := by
    intro attempts lease
    simp only [Increasing,List.pairwise_cons,List.mem_singleton]
    refine ⟨?_,by simp,.nil⟩
    rintro m rfl
    decide
  obtain ⟨b₀,hb₀,hd₀⟩ := hdoc [] .nil
  obtain ⟨b₁,hb₁,hd₁⟩ := hdoc [⟨5,"a",0,none⟩] (List.pairwise_singleton ..)
  obtain ⟨b₂,hb₂,hd₂⟩ := hdoc _ (hpair 0 none)
  obtain ⟨b₃,hb₃,hd₃⟩ := hdoc _ (hpair 1 (some ⟨7,1010⟩))
  obtain ⟨b₄,hb₄,hd₄⟩ := hdoc _ (hpair 2 (some ⟨9,2010⟩))
  obtain ⟨b₅,hb₅,hd₅⟩ := hdoc [⟨6,"b",0,none⟩] (List.pairwise_singleton ..)
  let s₀ := stocked jobs.location b₀
  let s₁ := replaced s₀ jobs.location b₁
  let s₂ := replaced s₁ jobs.location b₂
  let s₃ := replaced s₂ jobs.location b₃
  let s₄ := replaced s₃ jobs.location b₄
  have ho₀ := stocked_objects jobs.location b₀
  have ho₁ := replaced_objects s₀ jobs.location b₁
  have ho₂ := replaced_objects s₁ jobs.location b₂
  have ho₃ := replaced_objects s₂ jobs.location b₃
  have ho₄ := replaced_objects s₃ jobs.location b₄
  have hlease : (u64TryFrom (Duration.asMillis ⟨1,0⟩)).filter (· > 0) = some 1000 := by decide
  have ha := @solo_publish _ _ _ _ _ jobs 0 "a" 5 ho₀ hd₀ hb₁
  have hb := @solo_publish _ _ _ _ _ jobs 1 "b" 6 ho₁ hd₁ hb₂
  have hfirst := solo_claim jobs 2 7 ho₂ hd₂ hlease
    (rfl : checkedAdd64 10 1000 = some 1010) rfl rfl hb₃
  have hsecond := solo_claim jobs 3 9 ho₃ hd₃ hlease
    (rfl : checkedAdd64 1010 1000 = some 2010) rfl rfl hb₄
  have hack : Solo Memory.store.Env 4 s₄ ((procedure (.ack 5 9)).program jobs.medium) _ _ _ :=
    memory_clock 1500 (memory_transact ho₄ hd₄ (memory_commit ho₄ hb₅))
  rw [← perform_eq] at hack
  obtain ⟨c₁,hr₁,hw₁,-,hj₁⟩ := ha.run (c := ⟨s₀,fun i => jobs.perform (shift i)⟩) rfl rfl
  obtain ⟨c₂,hr₂,hw₂,-,hj₂⟩ := Solo.after hr₁ hb hw₁ (hj₁ 1 (by decide))
  obtain ⟨c₃,hr₃,hw₃,hd₃',hj₃⟩ := Solo.after hr₂ hfirst hw₂
    ((hj₂ 2 (by decide)).trans (hj₁ 2 (by decide)))
  obtain ⟨c₄,hr₄,hw₄,hd₄',hj₄⟩ := Solo.after hr₃ hsecond hw₃
    ((hj₃ 3 (by decide)).trans ((hj₂ 3 (by decide)).trans (hj₁ 3 (by decide))))
  obtain ⟨c,hr,hw,hdone,hj⟩ := Solo.after hr₄ hack hw₄ ((hj₄ 4 (by decide)).trans
    ((hj₃ 4 (by decide)).trans ((hj₂ 4 (by decide)).trans (hj₁ 4 (by decide)))))
  have hcoh := stocked_coherent hr
    (by simp [writes,Solo.events,mutation,Event.answer,ReplaceReply.written])
  have hsnap : Snapshot jobs Memory.store c.world [⟨6,"b",0,none⟩] := by
    rw [hw]
    exact ⟨_,_,replaced_objects s₄ jobs.location b₅,hd₅,rfl⟩
  exact ⟨s₀,_,c,⟨⟨_,ho₀,hb₀⟩,hr,(by decide : ([5,6,7,9] : List Uuid).Nodup),hcoh⟩,hsnap,
    (hj 2 (by decide)).trans ((hj₄ 2 (by decide)).trans hd₃'),(hj 3 (by decide)).trans hd₄',hdone⟩

theorem queue_loses_nothing (S : ObjectStore ε) (queue : Queue V) (ops : ℕ → Op V) (s : S.State)
    (tr : Trace (Reply ε)) (c : Config S.State (Reply ε) (Except (Error ε) (Outcome V)))
    (hrt : queue.codec.RoundTrips 3) (h : History queue S ops s tr c) :
    (∃ messages, Snapshot queue S c.world messages ∧ Exact queue ops tr messages) ∧
    (∀ i e, c.calls i = .done (.error e) →
      (∃ source, e = .store source) ∨ (∃ expected observed, e = .conflict expected observed) ∨
        e = .attemptOverflow ∨ e = .invalidLeaseDuration) ∧
    ∀ i n, ops i = .len → c.calls i = .done (.ok (.len n)) →
      ∃ o tr₁ tr₂, tr = tr₁ ++ ⟨i,.store (.get queue.location),.ok (some o)⟩ :: tr₂ ∧
        n + (acknowledged queue.location ops tr₁).length =
          (published queue.location ops tr₁).length := by
  refine ⟨h.exact hrt,fun i e hd => h.errors hrt hd,?_⟩
  intro i n hop hd
  obtain ⟨o,tr₁,tr₂,c₁,messages,rfl,hr,hsnap,rfl⟩ := h.len hop hd
  obtain ⟨messages',hsnap',hexact⟩ := (h.restrict hr).exact hrt
  obtain rfl := hsnap.unique hsnap'
  exact ⟨o,tr₁,tr₂,rfl,hexact.length⟩

theorem shift_loses_nothing : ∃ (s : Memory.State) (tr : Trace (Reply Empty))
    (c : Config Memory.store.State (Reply Empty) (Except (Error Empty) (Outcome String))),
    History jobs Memory.store shift s tr c ∧
      Snapshot jobs Memory.store c.world [⟨6,"b",0,none⟩] ∧
        Exact jobs shift tr [⟨6,"b",0,none⟩] := by
  obtain ⟨s,tr,c,h,hsnap,-⟩ := shift_history
  obtain ⟨messages,hsnap',hexact⟩ := (queue_loses_nothing Memory.store jobs shift s tr c
    (textCodec_roundTrips (by decide)) h).1
  obtain rfl := hsnap'.unique hsnap
  exact ⟨s,tr,c,h,hsnap,hexact⟩

end Queue

end Objsds
