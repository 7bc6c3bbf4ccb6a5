import Mathlib.Data.List.Pairwise
import Objsds.Queue.Stock

namespace Objsds

open Foundation

namespace Queue

variable {ε V : Type}

structure Grant where
  call : ℕ
  id : MessageId
  token : LeaseToken
  attempt : UInt32
  now : UInt64
  deadline : UInt64
deriving DecidableEq

section Grants

variable {S : ObjectStore ε}

def granted (l : Location) (c : Config S.State (Reply ε) (Except (Error ε) (Outcome V)))
    (past : Trace (Reply ε)) (ev : Event (Reply ε)) : Option Grant :=
  match stores l ev, c.calls ev.call, readings (Trace.of ev.call past) with
  | some _, .done (.ok (.claimed (some claim))), now :: _ =>
      some ⟨ev.call,claim.id,claim.leaseToken,claim.attempt,now,claim.leaseExpiresAtMillis⟩
  | _, _, _ => none

def grants (l : Location) (c : Config S.State (Reply ε) (Except (Error ε) (Outcome V)))
    (tr : Trace (Reply ε)) : List Grant :=
  Trace.collect (granted l c) [] tr

def grantsOf (gs : List Grant) (id : MessageId) : List Grant := gs.filter (fun g => g.id = id)

theorem granted_eq_some {l : Location}
    {c : Config S.State (Reply ε) (Except (Error ε) (Outcome V))} {past : Trace (Reply ε)}
    {ev : Event (Reply ε)} {g : Grant} :
    granted l c past ev = some g ↔ ∃ o claim rest, stores l ev = some o ∧
      c.calls ev.call = .done (.ok (.claimed (some claim))) ∧
      readings (Trace.of ev.call past) = g.now :: rest ∧
      g = ⟨ev.call,claim.id,claim.leaseToken,claim.attempt,g.now,claim.leaseExpiresAtMillis⟩ := by
  unfold granted
  constructor
  · intro h
    split at h
    · rename_i o claim now rest hw hc hr
      obtain rfl := Option.some.inj h
      exact ⟨o,claim,rest,hw,hc,hr,rfl⟩
    · simp at h
  · rintro ⟨o,claim,rest,hw,hc,hr,hg⟩
    rw [hw,hc,hr]
    exact congrArg some hg.symm

theorem ordered_last {gs : List Grant} {n : UInt64}
    (hp : gs.Pairwise (fun g g' => g.deadline ≤ g'.now)) (hlt : ∀ g ∈ gs, g.now < g.deadline)
    (hlast : ∀ g, gs.getLast? = some g → g.deadline ≤ n) : ∀ g ∈ gs, g.deadline ≤ n := by
  induction gs using List.reverseRecOn with
  | nil => simp
  | append_singleton gs last _ =>
      have hn : last.deadline ≤ n := hlast last (by simp)
      intro g hg
      rcases List.mem_append.mp hg with hg | hg
      · have h₁ : g.deadline ≤ last.now := (List.pairwise_append.mp hp).2.2 g hg last (by simp)
        have h₂ : last.now < last.deadline := hlt last (by simp)
        exact UInt64.le_trans h₁ (UInt64.le_trans (UInt64.le_of_lt h₂) hn)
      · exact List.mem_singleton.mp hg ▸ hn

end Grants

section Books

variable {l : Location} {ops : ℕ → Op V} {gs : List Grant} {tr : Trace (Reply ε)}
  {ev : Event (Reply ε)} {o : Object}

structure Book (l : Location) (ops : ℕ → Op V) (tr : Trace (Reply ε)) (gs : List Grant) :
    Prop where
  positive : ∀ g ∈ gs, g.now < g.deadline
  ordered : ∀ id, (grantsOf gs id).Pairwise (fun g g' => g.deadline ≤ g'.now)
  counted : ∀ id, (grantsOf gs id).map (fun g => g.attempt.toNat) =
    List.range' 1 (grantsOf gs id).length
  known : ∀ g ∈ gs, g.id ∈ (published l ops tr).map Prod.fst
  tokens : (gs.map Grant.token).Nodup
  issuer : ∀ g ∈ gs, ∃ tr₁ ev tr₂ o, tr = tr₁ ++ ev :: tr₂ ∧ stores l ev = some o ∧
    g.token ∈ identifiers (Trace.of ev.call tr₁)

def Recorded (gs : List Grant) (tickets : List Ticket) : Prop :=
  ∀ t ∈ tickets, t.attempts.toNat = (grantsOf gs t.id).length ∧
    t.lease = (grantsOf gs t.id).getLast?.map (fun g => ⟨g.token,g.deadline⟩)

theorem published_mono : ∀ id ∈ (published l ops tr).map Prod.fst,
    id ∈ (published l ops (tr ++ [ev])).map Prod.fst := by
  intro id hid
  rw [published_snoc,List.map_append]
  exact List.mem_append_left _ hid

theorem Book.mono (h : Book l ops tr gs) : Book l ops (tr ++ [ev]) gs where
  positive := h.positive
  ordered := h.ordered
  counted := h.counted
  known := fun g hg => published_mono _ (h.known g hg)
  tokens := h.tokens
  issuer := fun g hg => by
    obtain ⟨tr₁,e,tr₂,o,rfl,hw,hid⟩ := h.issuer g hg
    exact ⟨tr₁,e,tr₂ ++ [ev],o,by simp,hw,hid⟩

theorem Book.token_fresh (h : Book l ops tr gs) (hfresh : (issued tr).Nodup) {i : ℕ}
    {token : LeaseToken} (hid : token ∈ identifiers (Trace.of i tr))
    (hreads : ∀ x ∈ Trace.of i tr, isRead x = true) : token ∉ gs.map Grant.token := by
  intro hmem
  obtain ⟨g,hg,rfl⟩ := List.mem_map.mp hmem
  obtain ⟨tr₁,e,tr₂,o,rfl,hw,hev⟩ := h.issuer g hg
  exact identifier_fresh hfresh hreads hw hev hid

theorem grantsOf_snoc_self {g : Grant} : grantsOf (gs ++ [g]) g.id =
    grantsOf gs g.id ++ [g] := by
  simp [grantsOf]

theorem grantsOf_snoc_other {g : Grant} {id : MessageId} (h : g.id ≠ id) :
    grantsOf (gs ++ [g]) id = grantsOf gs id := by
  simp [grantsOf,h]

theorem Book.extend (h : Book l ops tr gs) {g : Grant} (hpos : g.now < g.deadline)
    (hafter : ∀ x ∈ grantsOf gs g.id, x.deadline ≤ g.now)
    (hcount : g.attempt.toNat = (grantsOf gs g.id).length + 1)
    (hknown : g.id ∈ (published l ops tr).map Prod.fst) (htoken : g.token ∉ gs.map Grant.token)
    (hw : stores l ev = some o) (hid : g.token ∈ identifiers (Trace.of ev.call tr)) :
    Book l ops (tr ++ [ev]) (gs ++ [g]) where
  positive := by
    intro x hx
    rcases List.mem_append.mp hx with hx | hx
    · exact h.positive x hx
    · exact List.mem_singleton.mp hx ▸ hpos
  ordered := by
    intro id
    by_cases he : g.id = id
    · subst he
      rw [grantsOf_snoc_self]
      refine List.pairwise_append.mpr ⟨h.ordered g.id,List.pairwise_singleton _ _,?_⟩
      intro x hx y hy
      exact List.mem_singleton.mp hy ▸ hafter x hx
    · rw [grantsOf_snoc_other he]
      exact h.ordered id
  counted := by
    intro id
    by_cases he : g.id = id
    · subst he
      rw [grantsOf_snoc_self,List.map_append,h.counted g.id,List.length_append,
        List.length_singleton,List.range'_1_concat,List.map_singleton,hcount]
      simp [Nat.add_comm]
    · rw [grantsOf_snoc_other he]
      exact h.counted id
  known := by
    intro x hx
    rcases List.mem_append.mp hx with hx | hx
    · exact published_mono _ (h.known x hx)
    · exact published_mono _ (List.mem_singleton.mp hx ▸ hknown)
  tokens := by
    rw [List.map_append]
    refine List.nodup_append.mpr ⟨h.tokens,by simp,?_⟩
    intro a ha b hb
    rw [List.map_singleton,List.mem_singleton] at hb
    exact hb ▸ ne_of_mem_of_not_mem ha htoken
  issuer := by
    intro x hx
    rcases List.mem_append.mp hx with hx | hx
    · exact h.mono.issuer x hx
    · rw [List.mem_singleton.mp hx]
      exact ⟨tr,ev,[],o,rfl,hw,hid⟩

theorem Recorded.publish {id : MessageId} {before rest : List Ticket} (h : Book l ops tr gs)
    (hr : Recorded gs (before ++ rest)) (hnew : id ∉ (published l ops tr).map Prod.fst) :
    Recorded gs (before ++ ⟨id,0,none⟩ :: rest) := by
  have hnone : grantsOf gs id = [] := by
    refine List.filter_eq_nil_iff.mpr (fun g hg he => ?_)
    simp only [decide_eq_true_eq] at he
    exact hnew (he ▸ h.known g hg)
  intro t ht
  rcases List.mem_append.mp ht with ht | ht
  · exact hr t (by simp [ht])
  · rcases List.mem_cons.mp ht with rfl | ht
    · simp [hnone]
    · exact hr t (by simp [ht])

theorem Recorded.claim {before rest : List Ticket} {t : Ticket} {g : Grant}
    (hr : Recorded gs (before ++ t :: rest)) (hne : ∀ x ∈ before ++ rest, x.id ≠ t.id)
    (hid : g.id = t.id) (hcount : g.attempt.toNat = t.attempts.toNat + 1) :
    Recorded (gs ++ [g]) (before ++ ⟨t.id,g.attempt,some ⟨g.token,g.deadline⟩⟩ :: rest) := by
  have hother : ∀ x ∈ before ++ rest, x.attempts.toNat = (grantsOf (gs ++ [g]) x.id).length ∧
      x.lease = (grantsOf (gs ++ [g]) x.id).getLast?.map (fun g => ⟨g.token,g.deadline⟩) := by
    intro x hx
    rw [grantsOf_snoc_other (fun he => hne x hx (he.symm.trans hid))]
    refine hr x ?_
    rcases List.mem_append.mp hx with hx | hx
    · simp [hx]
    · simp [hx]
  intro x hx
  rcases List.mem_append.mp hx with hx | hx
  · exact hother x (by simp [hx])
  · rcases List.mem_cons.mp hx with rfl | hx
    · have ht := hr t (by simp)
      rw [← hid] at ht ⊢
      rw [grantsOf_snoc_self,hcount,ht.1]
      simp
    · exact hother x (by simp [hx])

theorem Recorded.free {t : Ticket} {tickets : List Ticket} {now : UInt64} (h : Book l ops tr gs)
    (hr : Recorded gs tickets) (ht : t ∈ tickets)
    (hfree : ∀ lease, t.lease = some lease → lease.expiresAtMillis ≤ now) :
    ∀ g ∈ grantsOf gs t.id, g.deadline ≤ now := by
  refine ordered_last (h.ordered t.id)
    (fun g hg => h.positive g (List.mem_of_mem_filter hg)) ?_
  intro g hg
  exact hfree ⟨g.token,g.deadline⟩ (by rw [(hr t ht).2,hg]; rfl)

end Books

section Runs

variable {S : ObjectStore ε} {queue : Queue V} {ops : ℕ → Op V} {s : S.State}
  {tr : Trace (Reply ε)} {c c' : Config S.State (Reply ε) (Except (Error ε) (Outcome V))}
  {ev : Event (Reply ε)}

theorem settle_definite (queue : Queue V) (reply : Version → Outcome V) (x : Version) {v : Version}
    {r : ReplaceReply ε}    (hv : r.written = some v) (hdef : ∀ e, r.result ≠ .error (.store e)) :
    queue.medium.settle x reply r = .ok (reply v) := by
  cases r with
  | replaced v' => simp_all [Medium.settle,ReplaceReply.result,ReplaceReply.written]
  | conflict observed => simp [ReplaceReply.written] at hv
  | failed e => exact absurd rfl (hdef e)
  | uncertain e v => exact absurd rfl (hdef e)

theorem grants_stable {tr' : Trace (Reply ε)}
    (h : Run S.Env (launch S queue.medium (fun i => procedure (ops i)) s) tr c)
    (hcoh : Coherent (held (S.objects s queue.location) queue.location tr))
    (h' : Run S.Env c tr' c') : grants queue.location c' tr = grants queue.location c tr := by
  refine Trace.collect_congr ?_
  rintro tr₁ e tr₂ rfl
  cases hw : stores queue.location e with
  | none => simp [granted,hw]
  | some o =>
      obtain ⟨_,_,_,_,_,_,_,_,_,_,_,_,hcall⟩ := Run.committed_at h hcoh hw
      simp only [granted,hcall,h'.done_stays hcall]

theorem grants_step (h : Run S.Env (launch S queue.medium (fun i => procedure (ops i)) s) tr c)
    (hcoh : Coherent (held (S.objects s queue.location) queue.location tr))
    (hs : Step S.Env c ev c') :
    grants queue.location c' (tr ++ [ev]) =
      grants queue.location c tr ++ (granted queue.location c' tr ev).toList := by
  rw [grants,Trace.collect_snoc]
  exact congrArg (· ++ _) (grants_stable h hcoh (.snoc .nil hs))

structure Leased (queue : Queue V) (ops : ℕ → Op V) (tr : Trace (Reply ε)) (gs : List Grant)
    (r : Except (Error ε) (Document V)) : Prop where
  account : Account queue ops tr r
  book : Book queue.location ops tr gs
  recorded : ∀ d, r = .ok d → Recorded gs (d.messages.map Message.ticket)

theorem Leased.claim {gs : List Grant} {o' : Object} {d : Document V} {before rest : List (Message V)}
    {message : Message V} {g : Grant} (h : Leased queue ops tr gs (.ok d))
    (hinc : Increasing Message.id d.messages) (hsplit : d.messages = before ++ message :: rest)
    (hid : g.id = message.id) (hpos : g.now < g.deadline) (hfree : available g.now message = true)
    (hcount : checkedAdd32 message.attempts 1 = some g.attempt)
    (hw : stores queue.location ev = some o')
    (htoken : g.token ∈ identifiers (Trace.of ev.call tr)) (hnew : g.token ∉ gs.map Grant.token) :
    Book queue.location ops (tr ++ [ev]) (gs ++ [g]) ∧
      Recorded (gs ++ [g]) ((before ++ leased message g.attempt ⟨g.token,g.deadline⟩ :: rest).map
        Message.ticket) := by
  have hrec := h.recorded d rfl
  have hmem : message.ticket ∈ d.messages.map Message.ticket :=
    List.mem_map_of_mem (by simp [hsplit])
  have hknown := ((h.account.stocked d rfl).members message.id).mp
    (List.mem_map_of_mem (by simp [hsplit]))
  have hattempt := checkedAdd32_one hcount
  have hexpired : ∀ lease, message.ticket.lease = some lease → lease.expiresAtMillis ≤ g.now := by
    intro lease hl
    simp only [Message.ticket] at hl
    simpa [available,hl] using hfree
  have hafter := hrec.free h.book hmem hexpired
  have hlen := (hrec _ hmem).1
  simp only [Message.ticket,← hid] at hafter hlen
  refine ⟨h.book.extend hpos hafter (by rw [hattempt,hlen]) (hid ▸ hknown.1) hnew hw htoken,?_⟩
  rw [hsplit,List.map_append,List.map_cons] at hrec
  rw [List.map_append,List.map_cons]
  refine hrec.claim ?_ hid hattempt
  intro x hx
  rw [← List.map_append] at hx
  obtain ⟨m,hm,rfl⟩ := List.mem_map.mp hx
  exact Increasing.others_ne (hsplit ▸ hinc) m hm

theorem Leased.commit {gs : List Grant} {o o' : Object} {d d' : Document V}
    {reply : Version → Outcome V} {r : ReplaceReply ε} (h : Leased queue ops tr gs (.ok d))
    (hfresh : (issued tr).Nodup) (hdef : ¬ storeFailed ev.answer)
    (hd : queue.decode (ε := ε) o.bytes = .ok d) (hw : stores queue.location ev = some o')
    (hc : Committed queue.medium (procedure (ops ev.call)) (Trace.of ev.call tr) ev d d' reply r)
    (he : queue.encode (ε := ε) d' = .ok o'.bytes) (hv : r.written = some o'.version)
    (hcall : c'.calls ev.call = .done (queue.medium.settle o.version reply r)) :
    Leased queue ops (tr ++ [ev]) (gs ++ (granted queue.location c' tr ev).toList)
      (queue.decode (ε := ε) o'.bytes) := by
  have hacc := h.account.commit hfresh hd hw hc he
  obtain ⟨o₁,hh,b,hb,hans⟩ := hc.holds
  obtain ⟨-,-,hinc⟩ := decode_eq_ok.mp hd
  have hset := settle_definite queue reply o.version hv (by
    intro e hre
    rw [hans] at hdef
    exact hdef ⟨e,hre⟩)
  rw [hset] at hcall
  have hrec := h.recorded d rfl
  have hnew : ∀ id ∈ identifiers (Trace.of ev.call tr),
      id ∉ (published queue.location ops tr).map Prod.fst :=
    fun id hid => published_fresh hfresh hid hh.reads
  have htok : ∀ id ∈ identifiers (Trace.of ev.call tr), id ∉ gs.map Grant.token :=
    fun id hid => h.book.token_fresh hfresh hid hh.reads
  have hchange := commit_inv hinc hh.planned
  generalize hop : ops ev.call = op at hchange
  generalize hids : identifiers (Trace.of ev.call tr) = ids at hchange hnew htok
  generalize hnows : readings (Trace.of ev.call tr) = nows at hchange
  suffices hbook : Book queue.location ops (tr ++ [ev])
      (gs ++ (granted queue.location c' tr ev).toList) ∧
      Recorded (gs ++ (granted queue.location c' tr ev).toList)
        (d'.messages.map Message.ticket) by
    refine ⟨hacc,hbook.1,fun d'' hd'' => ?_⟩
    rw [decode_reload he hd'']
    exact hbook.2
  cases hchange with
  | publish value id =>
      have hg : granted queue.location c' tr ev = none := by simp [granted,hcall]
      rw [hg,Option.toList_none,List.append_nil]
      refine ⟨h.book.mono,?_⟩
      obtain ⟨-,before,rest,hsplit,hins⟩ := insertMessage_spec ⟨id,value,0,none⟩ hinc
        (fun m hm he => hnew id (by simp)
          (he ▸ ((h.account.stocked d rfl).members m.id).mp (List.mem_map_of_mem hm)).1)
      rw [hsplit,List.map_append] at hrec
      rw [hins,List.map_append,List.map_cons]
      exact hrec.publish h.book (hnew id (by simp))
  | claim leaseDuration leaseMillis now deadline token before rest message attempts hpos hexp
      hsplit hfree htaken hcount =>
      have hg : granted queue.location c' tr ev =
          some ⟨ev.call,message.id,token,attempts,now,deadline⟩ := by
        simp [granted,hw,hcall,hnows]
      rw [hg,Option.toList_some]
      exact h.claim hinc hsplit rfl (checkedAdd64_lt hexp hpos) hfree hcount hw
        (by rw [hids]; simp) (htok token (by simp))
  | ack now before rest message lease hsplit hlease hunexp =>
      have hg : granted queue.location c' tr ev = none := by simp [granted,hcall]
      rw [hg,Option.toList_none,List.append_nil]
      refine ⟨h.book.mono,fun t ht => hrec t ?_⟩
      rw [hsplit,List.map_append,List.map_cons]
      rw [List.map_append] at ht
      rcases List.mem_append.mp ht with ht | ht
      · exact List.mem_append_left _ ht
      · exact List.mem_append_right _ (List.mem_cons_of_mem _ ht)

theorem History.leased (h : History queue S ops s tr c) (hdef : Definite tr) :
    ∃ o, S.objects c.world queue.location = some o ∧
      Leased queue ops tr (grants queue.location c tr) (queue.decode (ε := ε) o.bytes) := by
  obtain ⟨o₀,ho₀,hb₀⟩ := h.created
  have hrun := h.run
  rw [launch_eq] at hrun
  refine invariant_rule
    (fun tr => (issued tr).Nodup ∧ Definite tr ∧
      Coherent (held (S.objects s queue.location) queue.location tr))
    (fun tr c r => Leased queue ops tr (grants queue.location c tr) r)
    (fun ha => ⟨issued_nodup_of_append ha.1,fun e he => ha.2.1 e (List.mem_append_left _ he),
      ha.2.2.of_append⟩) ho₀ ?_ ?_ ?_ hrun ⟨h.fresh,hdef,h.coherent⟩ h.coherent
  · have ha := Account.empty ops hb₀
    refine ⟨ha,⟨by simp [grants,Trace.collect],by simp [grants,grantsOf,Trace.collect],
      by simp [grants,grantsOf,Trace.collect],by simp [grants,Trace.collect],.nil,
      by simp [grants,Trace.collect]⟩,?_⟩
    intro d hd
    rw [decode_reload hb₀ hd]
    simp [Recorded]
  · intro tr c ev c' o hr hs ha ho hw hi
    have hg : granted queue.location c' tr ev = none := by
      rw [granted,show stores queue.location ev = none from hw]
    rw [grants_step hr ha.2.2.of_append hs,hg,Option.toList_none,List.append_nil]
    exact ⟨hi.account.quiet hw,hi.book.mono,hi.recorded⟩
  · intro tr c ev c' o o' d d' reply r hr hs ha hd hw hc he hv hcall hi
    rw [grants_step hr ha.2.2.of_append hs]
    refine hi.commit (issued_nodup_of_append ha.1) ?_ hd hw hc he hv hcall
    obtain ⟨o₁,-,b,-,hans⟩ := hc.holds
    exact ha.2.1 ev (by simp) o'.version (by rw [hans]; exact hv)

theorem History.granted_of (h : History queue S ops s tr c) {i : ℕ} {claim : Claim V}
    (hd : c.calls i = .done (.ok (.claimed (some claim)))) :
    ∃ g ∈ grants queue.location c tr, readings (Trace.of i tr) = [g.now] ∧
      g = ⟨i,claim.id,claim.leaseToken,claim.attempt,g.now,claim.leaseExpiresAtMillis⟩ := by
  have hrun := h.run
  rw [launch_eq] at hrun
  have hf := Run.finished hrun hd
  generalize hres : (Except.ok (.claimed (some claim)) : Except (Error ε) (Outcome V)) = result
    at hf
  cases hf with
  | responded result hr => simp [reject_error hr] at hres
  | missed => simp at hres
  | unencodable => simp at hres
  | answered o d result hh =>
      obtain he | ⟨outcome,he,hdur⟩ := respond_inv hh.planned
      · simp [he] at hres
      · obtain rfl := Except.ok.inj (hres.trans he)
        simp [Outcome.durable] at hdur
  | settled h₀ o d d' reply b r hh hb hw =>
      have hchange := commit_inv (decode_eq_ok.mp hh.decoded).2.2 hh.planned
      cases r with
      | conflict observed => simp [Medium.settle,ReplaceReply.result] at hres
      | failed source => simp [Medium.settle,ReplaceReply.result] at hres
      | uncertain source v => simp [Medium.settle,ReplaceReply.result] at hres
      | replaced v =>
          have hreply : Outcome.claimed (some claim) = reply v := Except.ok.inj hres
          generalize hnows : readings h₀ = nows at hchange
          generalize hids : identifiers h₀ = ids at hchange
          generalize hop : ops i = op at hchange
          cases hchange with
          | publish => simp at hreply
          | ack => simp at hreply
          | claim leaseDuration leaseMillis now deadline token before rest message attempts =>
              obtain ⟨tr₁,ev,tr₂,rfl,rfl,ha,hof⟩ := Trace.of_snoc_inv hw
              refine ⟨⟨ev.call,claim.id,claim.leaseToken,claim.attempt,now,
                claim.leaseExpiresAtMillis⟩,Trace.mem_collect.mpr ⟨tr₁,ev,tr₂,rfl,?_⟩,?_,rfl⟩
              · exact granted_eq_some.mpr ⟨⟨b,v⟩,claim,[],stores_replace ha,hd,by rw [hof,hnows],rfl⟩
              · rw [hw,readings_append,hnows]
                rfl

end Runs

theorem leases_never_overlap (S : ObjectStore ε) (queue : Queue V) (ops : ℕ → Op V) (s : S.State)
    (tr : Trace (Reply ε)) (c : Config S.State (Reply ε) (Except (Error ε) (Outcome V)))
    (h : History queue S ops s tr c) (hdef : Definite tr) :
    (∀ i claim, c.calls i = .done (.ok (.claimed (some claim))) →
      ∃ g ∈ grants queue.location c tr, readings (Trace.of i tr) = [g.now] ∧
        g = ⟨i,claim.id,claim.leaseToken,claim.attempt,g.now,claim.leaseExpiresAtMillis⟩) ∧
    (∀ id, (grantsOf (grants queue.location c tr) id).Pairwise
      (fun g g' => g.deadline ≤ g'.now)) ∧
    (∀ g ∈ grants queue.location c tr, g.now < g.deadline) ∧
    (∀ id, (grantsOf (grants queue.location c tr) id).map (fun g => g.attempt.toNat) =
      List.range' 1 (grantsOf (grants queue.location c tr) id).length) ∧
    ((grants queue.location c tr).map Grant.token).Nodup := by
  obtain ⟨o,-,hl⟩ := h.leased hdef
  exact ⟨fun i claim hd => h.granted_of hd,hl.book.ordered,hl.book.positive,hl.book.counted,
    hl.book.tokens⟩

theorem shift_lease_granted : ∃ (s : Memory.State) (tr : Trace (Reply Empty))
    (c : Config Memory.store.State (Reply Empty) (Except (Error Empty) (Outcome String))),
    History jobs Memory.store shift s tr c ∧ ∃ g ∈ grants jobs.location c tr,
      ∃ g' ∈ grants jobs.location c tr, g.id = 5 ∧ g'.id = 5 ∧ g.attempt = 1 ∧ g'.attempt = 2 ∧
        g.token ≠ g'.token ∧ g.deadline ≤ g'.now := by
  obtain ⟨s,tr,c,h,-,hfirst,hsecond,-⟩ := shift_history
  obtain ⟨hgrants,hordered,hpositive,-⟩ :=
    leases_never_overlap Memory.store jobs shift s tr c h (definite_empty tr)
  obtain ⟨g,hg,-,he⟩ := hgrants 2 _ hfirst
  obtain ⟨g',hg',-,he'⟩ := hgrants 3 _ hsecond
  obtain ⟨-,hid,htoken,hattempt,-,hdeadline⟩ := Grant.mk.inj he
  obtain ⟨-,hid',htoken',hattempt',-,hdeadline'⟩ := Grant.mk.inj he'
  have hne : g.token ≠ g'.token := by
    rw [htoken,htoken']
    decide
  let Apart (g g' : Grant) : Prop := g.deadline ≤ g'.now ∨ g'.deadline ≤ g.now
  have : Std.Symm Apart := ⟨fun _ _ => Or.symm⟩
  have hapart : (grantsOf (grants jobs.location c tr) 5).Pairwise Apart := (hordered 5).imp .inl
  have hpair : Apart g g' := hapart.forall (List.mem_filter.mpr ⟨hg,by simp [hid]⟩)
    (List.mem_filter.mpr ⟨hg',by simp [hid']⟩) (fun h => hne (congrArg Grant.token h))
  refine ⟨s,tr,c,h,g,hg,g',hg',hid,hid',hattempt,hattempt',hne,hpair.resolve_right (fun hle => ?_)⟩
  have hlt := UInt64.lt_of_le_of_lt hle (hpositive g hg)
  rw [hdeadline,hdeadline'] at hlt
  exact absurd hlt (by decide)

end Queue

end Objsds
