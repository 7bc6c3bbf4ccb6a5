import Objsds.Queue.Reference

namespace Objsds

open Foundation

namespace Queue

variable {ε V : Type}

-- Calls made one after the other, each on the object its predecessor left.
inductive Consecutive (queue : Queue V) (now : UInt64) :
    Object → List (Op V × Except (Error ε) (Outcome V)) → Object → Prop
  | nil (o : Object) : Consecutive queue now o [] o
  | cons {o o' : Object} {op : Op V} {result : Except (Error ε) (Outcome V)}
      {h : List (Sigma (Reply ε))} {calls : List (Op V × Except (Error ε) (Outcome V))} :
      Undisturbed o now h → (queue.perform op).Follows h (.done result) →
      Consecutive queue now (left o h) calls o' →
      Consecutive queue now o ((op,result) :: calls) o'

def isClaim : Op V → Bool
  | .claim _ => true
  | _ => false

def claimResults (calls : List (Op V × Except (Error ε) (Outcome V))) :
    List (Except (Error ε) (Outcome V)) :=
  (calls.filter (fun p => isClaim p.1)).map Prod.snd

theorem claimResults_length (calls : List (Op V × Except (Error ε) (Outcome V))) :
    (claimResults calls).length = (calls.map Prod.fst).countP isClaim := by
  rw [claimResults,List.length_map,List.countP_map,List.countP_eq_length_filter]
  rfl

def Draining (now : UInt64) : Op V → Prop
  | .claim lease => ¬ LeaseRefused now lease
  | .ack _ _ => True
  | _ => False

structure Ready (ε : Type) (queue : Queue V) (now : UInt64) (o : Object)
    (free : List (Message V)) : Prop where
  readable : ∃ d, queue.decode (ε := ε) o.bytes = .ok d ∧
    d.messages.filter (available now) = free ∧
    ∀ m ∈ d.messages, queue.codec.ReadsBack 3 m.value

section Steps

variable {queue : Queue V} {o : Object} {now : UInt64} {free : List (Message V)}
  {h : List (Sigma (Reply ε))} {result : Except (Error ε) (Outcome V)}

theorem ready_of_publishes {d d' : Document V} {answer : Outcome V} (now : UInt64)
    (hp : Publishes queue.medium o d' answer h result)
    (hd : queue.decode (ε := ε) o.bytes = .ok d) (hh : d'.toHeader = d.toHeader)
    (hi : Increasing Message.id d'.messages)
    (hv : ∀ m ∈ d'.messages, queue.codec.ReadsBack 3 m.value) :
    result = .ok answer ∧ Ready ε queue now (left o h) (d'.messages.filter (available now)) := by
  obtain ⟨b,hb,hdec⟩ := encode_readsBack (ε := ε) hv (hh.trans (decode_eq_ok.mp hd).2.1) hi
  rcases hp with ⟨b',hb',-,hleft,hr⟩ | ⟨e,he,-,-,-⟩
  · obtain rfl : b = b' := Except.ok.inj (hb.symm.trans hb')
    exact ⟨hr,⟨d',by rw [hleft,hdec],rfl,hv⟩⟩
  · exact absurd (hb.symm.trans he) (by simp)

theorem claim_step {lease : Duration} (hlease : ¬ LeaseRefused now lease)
    (hmax : ∀ m ∈ free, m.attempts.toNat ≠ 2 ^ 32 - 1) (hready : Ready ε queue now o free)
    (hu : Undisturbed o now h) (hf : (queue.perform (.claim lease)).Follows h (.done result)) :
    (∃ c, result = .ok (.claimed c) ∧
      c.map (fun c => (c.id,c.value)) = free.head?.map (fun m => (m.id,m.value))) ∧
    Ready ε queue now (left o h) free.tail := by
  obtain ⟨d,hd,rfl,hv⟩ := hready.readable
  have hi := (decode_eq_ok.mp hd).2.2
  rw [perform_eq] at hf
  obtain ⟨deadline,h',-,hlt,rfl,hplan⟩ := claim_accepted hlease hd hu hf
  have hs := claimPlan_selection (ε := ε) now deadline d
  generalize claimPlan now deadline d = plan at hplan hs
  cases hs with
  | nothing taken =>
      obtain ⟨rfl,rfl⟩ := undisturbed_respond hplan
      have hnil : d.messages.filter (available now) = [] :=
        List.filter_eq_nil_iff.mpr (fun m hm => by simp [taken m hm])
      rw [hnil]
      exact ⟨⟨none,rfl,rfl⟩,⟨d,hd,hnil,hv⟩⟩
  | exhausted before rest message messages hfree taken full =>
      refine absurd (checkedAdd32_eq_none full) (hmax message ?_)
      exact List.mem_filter.mpr ⟨by simp [messages],hfree⟩
  | granted before rest message attempts messages hfree taken counted =>
      obtain ⟨token,h₁,rfl,hn⟩ := undisturbed_generate hplan
      have hp := (undisturbed_commit (fun x hx => hu x (by simp [hx])) hn).cons
        (x := ⟨.nowV7,token⟩) rfl rfl
      have hp := (hp.cons (x := ⟨.store (.get queue.location),.ok (some o)⟩) rfl rfl).cons
        (x := ⟨.nowMillis,now⟩) rfl rfl
      have hbefore : before.filter (available now) = [] :=
        List.filter_eq_nil_iff.mpr (fun m hm => by simp [taken m hm])
      have hleased : available now (leased message attempts ⟨token,deadline⟩) = false :=
        available_eq_false.mpr ⟨_,rfl,hlt⟩
      rw [messages] at hi hv
      have hv' : ∀ m ∈ before ++ leased message attempts ⟨token,deadline⟩ :: rest,
          queue.codec.ReadsBack 3 m.value := by
        intro m hm
        rcases List.mem_append.mp hm with hm | hm
        · exact hv m (by simp [hm])
        · rcases List.mem_cons.mp hm with rfl | hm
          · exact hv message (by simp)
          · exact hv m (by simp [hm])
      obtain ⟨rfl,hr⟩ := ready_of_publishes now hp hd rfl (hi.replace_key rfl) hv'
      rw [messages]
      simp only [List.filter_append,List.filter_cons,hbefore,hleased,List.nil_append] at hr
      simp only [List.filter_append,List.filter_cons,hbefore,hfree,List.nil_append]
      exact ⟨⟨_,rfl,rfl⟩,hr⟩

theorem ack_step {id : MessageId} {token : LeaseToken} (hready : Ready ε queue now o free)
    (hu : Undisturbed o now h) (hf : (queue.perform (.ack id token)).Follows h (.done result)) :
    Ready ε queue now (left o h) free := by
  obtain ⟨d,hd,rfl,hv⟩ := hready.readable
  have hi := (decode_eq_ok.mp hd).2.2
  rw [perform_eq,procedure] at hf
  obtain ⟨h₁,rfl,hf₁⟩ := undisturbed_clock hu hf
  obtain ⟨h₂,rfl,hplan⟩ := undisturbed_transact (m := queue.medium) hd hu.tail hf₁
  have hs := ackPlan_settlement (ε := ε) id token now hi
  generalize ackPlan id token now d = plan at hplan hs
  cases hs with
  | missing | mismatch | expired =>
      obtain ⟨rfl,-⟩ := undisturbed_respond hplan
      exact ⟨d,hd,rfl,hv⟩
  | acknowledged before rest message lease messages named holds same intime =>
      have hp := undisturbed_commit (fun x hx => hu x (by simp [hx])) hplan
      have hp := (hp.cons (x := ⟨.store (.get queue.location),.ok (some o)⟩) rfl rfl).cons
        (x := ⟨.nowMillis,now⟩) rfl rfl
      have htaken : available now message = false := available_eq_false.mpr ⟨lease,holds,intime⟩
      have hsub : (before ++ rest).Sublist d.messages := by
        rw [messages]
        exact (List.Sublist.refl before).append (List.sublist_cons_self message rest)
      obtain ⟨-,hr⟩ := ready_of_publishes now hp hd rfl (hi.sublist hsub)
        (fun m hm => hv m (hsub.subset hm))
      rw [List.filter_append] at hr
      rw [messages,List.filter_append,List.filter_cons_of_neg (by simp [htaken])]
      exact hr

end Steps

def drained (free : List (Message V)) (n : ℕ) : List (Option (MessageId × V)) :=
  (free.map (fun m : Message V => some (m.id,m.value)) ++ List.replicate n none).take n

theorem drained_succ (free : List (Message V)) (n : ℕ) :
    drained free (n + 1) = free.head?.map (fun m => (m.id,m.value)) :: drained free.tail n := by
  cases free with
  | nil => simp [drained,List.replicate_succ]
  | cons m free =>
      simp only [drained,List.map_cons,List.cons_append,List.take_succ_cons,List.head?_cons,
        Option.map_some,List.tail_cons,List.cons.injEq,true_and]
      rw [List.replicate_succ',← List.append_assoc,List.take_append_of_le_length]
      simp

theorem consecutive_drains {queue : Queue V} {now : UInt64} {o o' : Object}
    {calls : List (Op V × Except (Error ε) (Outcome V))} {free : List (Message V)}
    (hc : Consecutive queue now o calls o') (hops : ∀ p ∈ calls, Draining now p.1)
    (hmax : ∀ m ∈ free, m.attempts.toNat ≠ 2 ^ 32 - 1) (hready : Ready ε queue now o free) :
    ∃ claims : List (Option (Claim V)),
      claimResults calls = claims.map (fun c => .ok (.claimed c)) ∧
      claims.map (Option.map (fun c => (c.id,c.value))) = drained free claims.length := by
  induction hc generalizing free with
  | nil o => exact ⟨[],rfl,rfl⟩
  | @cons o o' op result h calls hu hf _ ih =>
      have hop : Draining now op := hops (op,result) (by simp)
      have hrest : ∀ p ∈ calls, Draining now p.1 := fun p hp => hops p (by simp [hp])
      cases op with
      | claim lease =>
          obtain ⟨⟨c,rfl,hfirst⟩,hnext⟩ := claim_step hop hmax hready hu hf
          obtain ⟨claims,hr,hm⟩ := ih hrest (fun m hm => hmax m (List.mem_of_mem_tail hm)) hnext
          refine ⟨c :: claims,?_,?_⟩
          · rw [claimResults,List.filter_cons_of_pos rfl,List.map_cons,List.map_cons,← hr]
            rfl
          · rw [List.map_cons,List.length_cons,drained_succ,hm,hfirst]
      | ack id token =>
          obtain ⟨claims,hr,hm⟩ := ih hrest hmax (ack_step hready hu hf)
          refine ⟨claims,?_,hm⟩
          rw [claimResults,List.filter_cons_of_neg (by simp [isClaim])]
          exact hr
      | publish value | len | isEmpty => exact absurd hop (by simp [Draining])

theorem exists_consecutive (queue : Queue V) (now : UInt64) (ops : List (Op V)) (o : Object) :
    ∃ (calls : List (Op V × Except (Error ε) (Outcome V))) (o' : Object),
      calls.map Prod.fst = ops ∧ Consecutive queue now o calls o' := by
  induction ops generalizing o with
  | nil => exact ⟨[],o,rfl,.nil o⟩
  | cons op ops ih =>
      obtain ⟨h,result,hf,hu⟩ := exists_undisturbed (queue.perform (ε := ε) op) o now
      obtain ⟨calls,o',hops,hc⟩ := ih (left o h)
      exact ⟨(op,result) :: calls,o',by simp [hops],.cons hu hf hc⟩

theorem claims_drain_in_order (queue : Queue V) (now : UInt64) {o : Object} {d : Document V}
    (hd : queue.decode (ε := ε) o.bytes = .ok d)
    (hv : ∀ m ∈ d.messages, queue.codec.ReadsBack 3 m.value)
    (hmax : ∀ m ∈ d.messages, Free now m → m.attempts.toNat ≠ 2 ^ 32 - 1)
    {ops : List (Op V)} (hops : ∀ op ∈ ops, Draining now op) :
    let free := d.messages.filter (fun m => available now m)
    Increasing Message.id free ∧
    (∃ (calls : List (Op V × Except (Error ε) (Outcome V))) (o' : Object),
      calls.map Prod.fst = ops ∧ Consecutive queue now o calls o') ∧
    ∀ (calls : List (Op V × Except (Error ε) (Outcome V))) (o' : Object),
      calls.map Prod.fst = ops → Consecutive queue now o calls o' →
      ∃ claims : List (Option (Claim V)),
        claimResults calls = claims.map (fun c => .ok (.claimed c)) ∧
        claims.map (Option.map (fun c => (c.id,c.value))) = drained free claims.length := by
  intro free
  refine ⟨(decode_eq_ok.mp hd).2.2.sublist List.filter_sublist,
    exists_consecutive queue now ops o,fun calls o' hcalls hc => ?_⟩
  refine consecutive_drains hc (fun p hp => hops p.1 ?_) (fun m hm => ?_) ⟨d,hd,rfl,hv⟩
  · exact hcalls ▸ List.mem_map_of_mem hp
  · obtain ⟨hmem,hfree⟩ := List.mem_filter.mp hm
    exact hmax m hmem (available_iff.mp hfree)

-- One message is free, one is leased until later, and the lease of the last has run out.
def chores : Document String :=
  ⟨⟨1,"queue","v1"⟩,[⟨1,"post the letter",0,none⟩,⟨2,"buy milk",1,some ⟨7,2000⟩⟩,
    ⟨3,"call home",2,some ⟨8,500⟩⟩]⟩

theorem errands_drained :
    ∃ (o : Object) (calls : List (Op String × Except (Error Empty) (Outcome String))) (o' : Object)
      (claims : List (Option (Claim String))),
      errands.decode (ε := Empty) o.bytes = .ok chores ∧
      calls.map Prod.fst = [.claim ⟨60,0⟩,.ack 2 7,.claim ⟨60,0⟩,.claim ⟨60,0⟩] ∧
      Consecutive errands 1000 o calls o' ∧
      claimResults calls = claims.map (fun c => .ok (.claimed c)) ∧
      claims.map (Option.map (fun c => (c.id,c.value))) =
        [some (1,"post the letter"),some (3,"call home"),none] := by
  have hrt : errands.codec.RoundTrips 3 := textCodec_roundTrips (by decide)
  obtain ⟨b,-,hd⟩ := encode_roundTrip (ε := Empty) (d := chores) hrt rfl
    (by simp [chores,Increasing])
  have hlease : ¬ LeaseRefused 1000 ⟨60,0⟩ := by
    unfold LeaseRefused
    decide
  have hops : ∀ op ∈ ([.claim ⟨60,0⟩,.ack 2 7,.claim ⟨60,0⟩,.claim ⟨60,0⟩] : List (Op String)),
      Draining 1000 op := by
    simpa [Draining] using hlease
  have hmax : ∀ m ∈ chores.messages, Free 1000 m → m.attempts.toNat ≠ 2 ^ 32 - 1 := by
    simp [chores]
  obtain ⟨-,⟨calls,o',hcalls,hc⟩,hall⟩ := claims_drain_in_order errands 1000
    (o := ⟨b,⟨"1"⟩⟩) hd (fun m _ => hrt m.value) hmax hops
  obtain ⟨claims,hr,hm⟩ := hall calls o' hcalls hc
  have hthree : claims.length = 3 := by
    have hlength := congrArg List.length hr
    rw [claimResults_length,hcalls,List.length_map] at hlength
    exact hlength.symm
  rw [hthree] at hm
  exact ⟨_,calls,o',claims,hd,hcalls,hc,hr,hm.trans (by decide)⟩

end Queue

end Objsds
