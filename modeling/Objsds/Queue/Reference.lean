import Objsds.Json.Compact
import Objsds.Queue.Changes
import Objsds.Structure.Uncontended

namespace Objsds

open Foundation

namespace Queue

variable {ε V : Type}

def LeaseRefused (now : UInt64) (lease : Duration) : Prop :=
  lease.asMillis = 0 ∨ 2 ^ 64 ≤ lease.asMillis ∨ 2 ^ 64 ≤ now.toNat + lease.asMillis

def Free (now : UInt64) (m : Message V) : Prop :=
  m.lease = none ∨ ∃ l, m.lease = some l ∧ l.expiresAtMillis ≤ now

theorem available_iff {now : UInt64} {m : Message V} : available now m = true ↔ Free now m := by
  rw [available,Free]
  cases m.lease <;> simp

theorem available_eq_false {now : UInt64} {m : Message V} :
    available now m = false ↔ ∃ l, m.lease = some l ∧ now < l.expiresAtMillis := by
  rw [available]
  cases m.lease <;> simp

section Leases

variable {now : UInt64} {lease : Duration}

theorem leaseMillis_eq_none (h : lease.asMillis = 0 ∨ 2 ^ 64 ≤ lease.asMillis) :
    (u64TryFrom lease.asMillis).filter (· > 0) = none := by
  rcases h with h | h
  · simp [u64TryFrom,h,Option.filter]
  · rw [u64TryFrom,if_neg (Nat.not_lt.mpr h)]
    rfl

theorem leaseMillis_eq_some (h₀ : lease.asMillis ≠ 0) (h : lease.asMillis < 2 ^ 64) :
    (u64TryFrom lease.asMillis).filter (· > 0) = some (UInt64.ofNat lease.asMillis) := by
  have hn : (UInt64.ofNat lease.asMillis).toNat = lease.asMillis := UInt64.toNat_ofNat_of_lt' h
  have hpos : 0 < UInt64.ofNat lease.asMillis := by
    rw [UInt64.lt_iff_toNat_lt,hn]
    exact Nat.pos_of_ne_zero h₀
  rw [u64TryFrom,if_pos h,Option.filter_some,if_pos]
  simpa using hpos

theorem lease_accepted (h : ¬ LeaseRefused now lease) :
    ∃ deadline, (u64TryFrom lease.asMillis).filter (· > 0) = some (UInt64.ofNat lease.asMillis) ∧
      checkedAdd64 now (UInt64.ofNat lease.asMillis) = some deadline ∧
      deadline.toNat = now.toNat + lease.asMillis ∧ now < deadline := by
  simp only [LeaseRefused,not_or,Nat.not_le] at h
  obtain ⟨h₀,hlt,hadd⟩ := h
  have hn : (UInt64.ofNat lease.asMillis).toNat = lease.asMillis := UInt64.toNat_ofNat_of_lt' hlt
  have hd : (now + UInt64.ofNat lease.asMillis).toNat = now.toNat + lease.asMillis := by
    rw [UInt64.toNat_add,hn,Nat.mod_eq_of_lt hadd]
  refine ⟨now + UInt64.ofNat lease.asMillis,leaseMillis_eq_some h₀ hlt,?_,hd,?_⟩
  · rw [checkedAdd64,hn,if_pos hadd]
  · rw [UInt64.lt_iff_toNat_lt,hd]
    omega

theorem claim_refused {m : Medium (Document V) (Error ε) ε} {o : Object}
    {h : List (Sigma (Reply ε))} {result : Except (Error ε) (Outcome V)}
    (hr : LeaseRefused now lease) (hu : Undisturbed o now h)
    (hf : ((procedure (.claim lease)).program m).Follows h (.done result)) :
    result = .error .invalidLeaseDuration ∧ ∀ x ∈ h, ∃ t, x = ⟨.nowMillis,t⟩ := by
  by_cases hl : lease.asMillis = 0 ∨ 2 ^ 64 ≤ lease.asMillis
  · simp only [procedure,leaseMillis_eq_none hl] at hf
    obtain ⟨rfl,hq⟩ := Program.follows_done.mp hf
    exact ⟨Program.done.inj hq,by simp⟩
  · rw [not_or,Nat.not_le] at hl
    have hn : (UInt64.ofNat lease.asMillis).toNat = lease.asMillis :=
      UInt64.toNat_ofNat_of_lt' hl.2
    have hadd : checkedAdd64 now (UInt64.ofNat lease.asMillis) = none := by
      rw [checkedAdd64,hn,if_neg]
      rcases hr with hr | hr | hr <;> omega
    simp only [procedure,leaseMillis_eq_some hl.1 hl.2] at hf
    obtain ⟨h',rfl,hn⟩ := undisturbed_clock hu hf
    simp only [hadd] at hn
    obtain ⟨rfl,hq⟩ := Program.follows_done.mp hn
    exact ⟨Program.done.inj hq,by simp⟩

theorem claim_accepted {m : Medium (Document V) (Error ε) ε} {o : Object} {d : Document V}
    {h : List (Sigma (Reply ε))} {result : Except (Error ε) (Outcome V)}
    (hr : ¬ LeaseRefused now lease) (hd : m.decode o.bytes = .ok d) (hu : Undisturbed o now h)
    (hf : ((procedure (.claim lease)).program m).Follows h (.done result)) :
    ∃ deadline h', deadline.toNat = now.toNat + lease.asMillis ∧ now < deadline ∧
      h = ⟨.nowMillis,now⟩ :: ⟨.store (.get m.location),.ok (some o)⟩ :: h' ∧
      ((claimPlan now deadline d).program m o.version).Follows h' (.done result) := by
  obtain ⟨deadline,hlease,hadd,hsum,hlt⟩ := lease_accepted hr
  obtain ⟨next,hp,hnext⟩ := procedure_claim (ε := ε) (V := V) hlease hadd
  rw [hp] at hf
  obtain ⟨h₁,rfl,hf₁⟩ := undisturbed_clock hu hf
  rw [hnext] at hf₁
  obtain ⟨h₂,rfl,hf₂⟩ := undisturbed_transact hd hu.tail hf₁
  exact ⟨deadline,h₂,hsum,hlt,rfl,hf₂⟩

end Leases

structure Selected (now : UInt64) (d : Document V) (message : Message V) : Prop where
  mem : message ∈ d.messages
  free : Free now message
  least : ∀ m ∈ d.messages, Free now m → message.id ≤ m.id

structure ClaimSpec (queue : Queue V) (o : Object) (d : Document V)
    (now : UInt64) (lease : Duration) (h : List (Sigma (Reply ε)))
    (result : Except (Error ε) (Outcome V)) : Prop where
  refused : result = .error .invalidLeaseDuration ↔ LeaseRefused now lease
  untouched : LeaseRefused now lease → ∀ x ∈ h, ∀ q r, x ≠ ⟨.store q,r⟩
  nothing : ¬ LeaseRefused now lease → (result = .ok (.claimed none) ↔
    ∀ message ∈ d.messages, ∃ l, message.lease = some l ∧ now < l.expiresAtMillis)
  overflow : ¬ LeaseRefused now lease → ∀ message, Selected now d message →
    (result = .error .attemptOverflow ↔ message.attempts.toNat = 2 ^ 32 - 1)
  granted : ¬ LeaseRefused now lease → ∀ message, Selected now d message →
    message.attempts.toNat ≠ 2 ^ 32 - 1 →
    ∃ before rest, ∃ token : LeaseToken, ∃ attempts : UInt32, ∃ deadline : UInt64,
      ⟨.nowV7,token⟩ ∈ h ∧
      attempts.toNat = message.attempts.toNat + 1 ∧
      deadline.toNat = now.toNat + lease.asMillis ∧ now < deadline ∧
      d.messages = before ++ message :: rest ∧
      Publishes queue.medium o { d with messages := before ++
          { message with attempts := attempts, lease := some ⟨token,deadline⟩ } :: rest }
        (.claimed (some ⟨message.id,message.value,token,attempts,deadline⟩)) h result
  silent : (LeaseRefused now lease ∨ result = .ok (.claimed none) ∨
    result = .error .attemptOverflow) → submissions h = []

structure AckSpec (queue : Queue V) (o : Object) (d : Document V)
    (id : MessageId) (token : LeaseToken) (now : UInt64) (h : List (Sigma (Reply ε)))
    (result : Except (Error ε) (Outcome V)) : Prop where
  notFound : result = .ok (.ack .notFound) ↔ ∀ message ∈ d.messages, message.id ≠ id
  leaseMismatch : result = .ok (.ack .leaseMismatch) ↔
    ∃ message ∈ d.messages, message.id = id ∧ ∀ l, message.lease = some l → l.token ≠ token
  leaseExpired : result = .ok (.ack .leaseExpired) ↔
    ∃ message ∈ d.messages, message.id = id ∧
      ∃ l, message.lease = some l ∧ l.token = token ∧ l.expiresAtMillis ≤ now
  acknowledged : ∀ message ∈ d.messages, message.id = id →
    (∃ l, message.lease = some l ∧ l.token = token ∧ now < l.expiresAtMillis) →
    ∃ before rest, d.messages = before ++ message :: rest ∧
      Publishes queue.medium o { d with messages := before ++ rest } (.ack .acknowledged) h result
  silent : (∀ message ∈ d.messages, message.id = id → ∀ l, message.lease = some l →
    l.token = token → l.expiresAtMillis ≤ now) → submissions h = []

section Meets

variable {queue : Queue V} {o : Object} {d : Document V} {now : UInt64}
  {h : List (Sigma (Reply ε))} {result : Except (Error ε) (Outcome V)}

theorem Selected.eq {before rest : List (Message V)} {message m : Message V}
    (hi : Increasing Message.id d.messages) (hd : d.messages = before ++ message :: rest)
    (hfree : available now message = true) (htaken : ∀ m ∈ before, available now m = false)
    (hs : Selected now d m) : m = message := by
  have hmem : message ∈ d.messages := by simp [hd]
  have hle : m.id ≤ message.id := hs.least message hmem (available_iff.mp hfree)
  have hge : message.id ≤ m.id := by
    rcases List.mem_append.mp (hd ▸ hs.mem) with hb | hr
    · exact absurd (available_iff.mpr hs.free) (by simp [htaken m hb])
    · rcases List.mem_cons.mp hr with rfl | hr
      · exact le_rfl
      · rw [hd] at hi
        have hp := (List.pairwise_cons.mp (List.pairwise_append.mp hi).2.1).1
        exact le_of_lt (hp m hr)
  exact hi.key_inj hs.mem hmem (le_antisymm hle hge)

theorem publishes_outcome {d' : Document V} {answer : Outcome V}
    (hp : Publishes queue.medium o d' answer h result) :
    result = .ok answer ∨ ∃ e, result = .error (.document e) := by
  rcases hp with ⟨b,-,-,-,hr⟩ | ⟨e,he,-,-,hr⟩
  · exact .inl hr
  · obtain ⟨e',-,rfl⟩ := except_mapError_eq_error.mp he
    exact .inr ⟨e',hr⟩

theorem claim_meets {lease : Duration} (hd : queue.decode (ε := ε) o.bytes = .ok d)
    (hu : Undisturbed o now h)
    (hf : (queue.perform (.claim lease)).Follows h (.done result)) :
    ClaimSpec queue o d now lease h result := by
  have hi := (decode_eq_ok.mp hd).2.2
  rw [perform_eq] at hf
  by_cases hr : LeaseRefused now lease
  · obtain ⟨rfl,hclock⟩ := claim_refused hr hu hf
    refine ⟨by simp [hr],fun _ x hx q r he => ?_,fun hn => absurd hr hn,fun hn => absurd hr hn,
      fun hn => absurd hr hn,fun _ => ?_⟩
    · obtain ⟨t,ht⟩ := hclock x hx
      simp [ht] at he
    · refine List.filterMap_eq_nil_iff.mpr (fun x hx => ?_)
      obtain ⟨t,rfl⟩ := hclock x hx
      rfl
  · obtain ⟨deadline,h',hsum,hlt,rfl,hplan⟩ := claim_accepted hr hd hu hf
    have hs := claimPlan_selection (ε := ε) now deadline d
    generalize claimPlan now deadline d = plan at hplan hs
    cases hs with
    | nothing taken =>
        obtain ⟨rfl,rfl⟩ := undisturbed_respond hplan
        have hnone : ∀ message, ¬ Selected now d message := fun message hsel =>
          absurd (available_iff.mpr hsel.free) (by simp [taken message hsel.mem])
        exact ⟨by simp [hr],fun hn => absurd hn hr,
          fun _ => ⟨fun _ m hm => available_eq_false.mp (taken m hm),fun _ => rfl⟩,
          fun _ m hm => absurd hm (hnone m),fun _ m hm => absurd hm (hnone m),fun _ => rfl⟩
    | exhausted before rest message messages free taken full =>
        obtain ⟨token,h₁,rfl,hn⟩ := undisturbed_generate hplan
        obtain ⟨rfl,rfl⟩ := undisturbed_respond hn
        have hsel : ∀ m, Selected now d m → m.attempts.toNat = 2 ^ 32 - 1 := by
          intro m hm
          rw [hm.eq hi messages free taken]
          exact checkedAdd32_eq_none full
        refine ⟨by simp [hr],fun hn => absurd hn hr,fun _ => ⟨by simp,fun hall => ?_⟩,
          fun _ m hm => by simp [hsel m hm],fun _ m hm hne => absurd (hsel m hm) hne,fun _ => rfl⟩
        have := available_eq_false.mpr (hall message (by simp [messages]))
        simp [free] at this
    | granted before rest message attempts messages free taken counted =>
        obtain ⟨token,h₁,rfl,hn⟩ := undisturbed_generate hplan
        have hp := (undisturbed_commit (fun x hx => hu x (by simp [hx])) hn).cons
          (x := ⟨.nowV7,token⟩) rfl rfl
        have hp := (hp.cons (x := ⟨.store (.get queue.location),.ok (some o)⟩) rfl rfl).cons
          (x := ⟨.nowMillis,now⟩) rfl rfl
        have hcount := checkedAdd32_one counted
        have hmax : message.attempts.toNat ≠ 2 ^ 32 - 1 := by
          have := attempts.toNat_lt
          omega
        have hres := publishes_outcome hp
        refine ⟨?_,fun hn => absurd hn hr,fun _ => ⟨?_,fun hall => ?_⟩,fun _ m hm => ?_,
          fun _ m hm _ => ?_,?_⟩
        · rcases hres with rfl | ⟨e,rfl⟩ <;> simp [hr]
        · rcases hres with rfl | ⟨e,rfl⟩ <;> simp
        · have := available_eq_false.mpr (hall message (by simp [messages]))
          simp [free] at this
        · rw [hm.eq hi messages free taken]
          refine iff_of_false ?_ hmax
          rcases hres with rfl | ⟨e,rfl⟩ <;> simp
        · rw [hm.eq hi messages free taken]
          exact ⟨before,rest,token,attempts,deadline,by simp,hcount,hsum,hlt,messages,hp⟩
        · rcases hres with rfl | ⟨e,rfl⟩ <;> simp [hr]

theorem ack_meets {id : MessageId} {token : LeaseToken}
    (hd : queue.decode (ε := ε) o.bytes = .ok d) (hu : Undisturbed o now h)
    (hf : (queue.perform (.ack id token)).Follows h (.done result)) :
    AckSpec queue o d id token now h result := by
  have hi := (decode_eq_ok.mp hd).2.2
  rw [perform_eq,procedure] at hf
  obtain ⟨h₁,rfl,hf₁⟩ := undisturbed_clock hu hf
  obtain ⟨h₂,rfl,hplan⟩ := undisturbed_transact (m := queue.medium) hd hu.tail hf₁
  have hs := ackPlan_settlement (ε := ε) id token now hi
  generalize ackPlan id token now d = plan at hplan hs
  cases hs with
  | missing absent =>
      obtain ⟨rfl,rfl⟩ := undisturbed_respond hplan
      exact ⟨by simpa using absent,
        ⟨by simp,by rintro ⟨m,hm,hid,-⟩; exact absurd hid (absent m hm)⟩,
        ⟨by simp,by rintro ⟨m,hm,hid,-⟩; exact absurd hid (absent m hm)⟩,
        fun m hm hid => absurd hid (absent m hm),fun _ => rfl⟩
  | mismatch message mem named other =>
      obtain ⟨rfl,rfl⟩ := undisturbed_respond hplan
      have huniq : ∀ m ∈ d.messages, m.id = id → m = message :=
        fun m hm hid => hi.key_inj hm mem (hid.trans named.symm)
      refine ⟨⟨by simp,fun hall => absurd named (hall message mem)⟩,
        ⟨fun _ => ⟨message,mem,named,other⟩,fun _ => rfl⟩,⟨by simp,?_⟩,?_,fun _ => rfl⟩
      · rintro ⟨m,hm,hid,l,hl,ht,-⟩
        exact absurd ht (other l (huniq m hm hid ▸ hl))
      · rintro m hm hid ⟨l,hl,ht,-⟩
        exact absurd ht (other l (huniq m hm hid ▸ hl))
  | expired message lease mem named holds same late =>
      obtain ⟨rfl,rfl⟩ := undisturbed_respond hplan
      have huniq : ∀ m ∈ d.messages, m.id = id → m.lease = some lease :=
        fun m hm hid => hi.key_inj hm mem (hid.trans named.symm) ▸ holds
      refine ⟨⟨by simp,fun hall => absurd named (hall message mem)⟩,⟨by simp,?_⟩,
        ⟨fun _ => ⟨message,mem,named,lease,holds,same,late⟩,fun _ => rfl⟩,?_,fun _ => rfl⟩
      · rintro ⟨m,hm,hid,hother⟩
        exact absurd same (hother lease (huniq m hm hid))
      · rintro m hm hid ⟨l,hl,-,hlt⟩
        obtain rfl : lease = l := Option.some.inj ((huniq m hm hid).symm.trans hl)
        exact absurd late (UInt64.not_le.mpr hlt)
  | acknowledged before rest message lease messages named holds same intime =>
      have hp := undisturbed_commit (fun x hx => hu x (by simp [hx])) hplan
      have hp := (hp.cons (x := ⟨.store (.get queue.location),.ok (some o)⟩) rfl rfl).cons
        (x := ⟨.nowMillis,now⟩) rfl rfl
      have hres := publishes_outcome hp
      have hmem : message ∈ d.messages := by simp [messages]
      have huniq : ∀ m ∈ d.messages, m.id = id → m = message :=
        fun m hm hid => hi.key_inj hm hmem (hid.trans named.symm)
      refine ⟨⟨?_,fun hall => absurd named (hall message hmem)⟩,⟨?_,?_⟩,⟨?_,?_⟩,?_,?_⟩
      · rcases hres with rfl | ⟨e,rfl⟩ <;> simp
      · rcases hres with rfl | ⟨e,rfl⟩ <;> simp
      · rintro ⟨m,hm,hid,hother⟩
        rw [huniq m hm hid] at hother
        exact absurd same (hother lease holds)
      · rcases hres with rfl | ⟨e,rfl⟩ <;> simp
      · rintro ⟨m,hm,hid,l,hl,-,hle⟩
        rw [huniq m hm hid,holds] at hl
        obtain rfl := Option.some.inj hl
        exact absurd hle (UInt64.not_le.mpr intime)
      · intro m hm hid _
        rw [huniq m hm hid]
        exact ⟨before,rest,messages,hp⟩
      · intro hall
        exact absurd (hall message hmem named lease holds same) (UInt64.not_le.mpr intime)

end Meets

theorem claim_and_ack_meet_reference (queue : Queue V) (o : Object) (d : Document V)
    (hd : queue.decode (ε := ε) o.bytes = .ok d) (now : UInt64) :
    (∀ lease h result, Undisturbed o now h →
      (queue.perform (ε := ε) (.claim lease)).Follows h (.done result) →
      ClaimSpec queue o d now lease h result) ∧
    (∀ id token h result, Undisturbed o now h →
      (queue.perform (ε := ε) (.ack id token)).Follows h (.done result) →
      AckSpec queue o d id token now h result) ∧
    ∀ op, ∃ h result, Undisturbed o now h ∧
      (queue.perform (ε := ε) op).Follows h (.done result) := by
  refine ⟨fun lease h result hu hf => claim_meets hd hu hf,
    fun id token h result hu hf => ack_meets hd hu hf,fun op => ?_⟩
  obtain ⟨h,result,hf,hu⟩ := exists_undisturbed (queue.perform op) o now
  exact ⟨h,result,hu,hf⟩

def errands : Queue String := ⟨⟨"shop/queues/errands.json",by decide⟩,"v1",textCodec,compact⟩

def errand : Document String := ⟨⟨1,"queue","v1"⟩,[⟨1,"post the letter",0,none⟩]⟩

theorem errand_claimed :
    ∃ o h result, errands.decode (ε := Empty) o.bytes = .ok errand ∧
      (errands.perform (ε := Empty) (.claim ⟨60,0⟩)).Follows h (.done result) ∧
      ClaimSpec errands o errand 1000 ⟨60,0⟩ h result := by
  have hrt : errands.codec.RoundTrips 3 := textCodec_roundTrips (by decide)
  obtain ⟨b,-,hd⟩ := encode_roundTrip (ε := Empty) (d := errand) hrt rfl (by simp [errand,Increasing])
  obtain ⟨hclaim,-,hdone⟩ := claim_and_ack_meet_reference errands ⟨b,⟨"1"⟩⟩ errand hd 1000
  obtain ⟨h,result,hu,hf⟩ := hdone (.claim ⟨60,0⟩)
  exact ⟨⟨b,⟨"1"⟩⟩,h,result,hd,hf,hclaim _ h result hu hf⟩

end Queue

end Objsds
