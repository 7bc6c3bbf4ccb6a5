import Objsds.Queue.Procedures

namespace Objsds

open Foundation

namespace Queue

variable {ε V : Type}

section Arithmetic

theorem checkedAdd32_one {a b : UInt32} (h : checkedAdd32 a 1 = some b) :
    b.toNat = a.toNat + 1 := by
  unfold checkedAdd32 at h
  split at h
  · rename_i hlt
    obtain rfl := Option.some.inj h
    rw [UInt32.toNat_add]
    exact Nat.mod_eq_of_lt hlt
  · simp at h

theorem checkedAdd32_eq_none {a : UInt32} (h : checkedAdd32 a 1 = none) :
    a.toNat = 2 ^ 32 - 1 := by
  unfold checkedAdd32 at h
  split at h
  · simp at h
  · rename_i hlt
    have := a.toNat_lt
    have h1 : (1 : UInt32).toNat = 1 := rfl
    omega

theorem checkedAdd64_lt {now millis deadline : UInt64} (h : checkedAdd64 now millis = some deadline)
    (hm : 0 < millis) : now < deadline := by
  unfold checkedAdd64 at h
  split at h
  · rename_i hlt
    obtain rfl := Option.some.inj h
    rw [UInt64.lt_iff_toNat_lt,UInt64.toNat_add,Nat.mod_eq_of_lt hlt]
    have : 0 < millis.toNat := by simpa [UInt64.lt_iff_toNat_lt] using hm
    omega
  · simp at h

end Arithmetic

inductive Change (d : Document V) : Op V → List UInt64 → List Uuid → Document V →
    (Version → Outcome V) → Prop
  | publish (value : V) (id : MessageId) :
      Change d (.publish value) [] [id] (insertMessage d ⟨id,value,0,none⟩)
        (fun _ => .published id)
  | claim (leaseDuration : Duration) (leaseMillis now deadline : UInt64) (token : LeaseToken)
      (before rest : List (Message V)) (message : Message V) (attempts : UInt32)
      (positive : 0 < leaseMillis) (expires : checkedAdd64 now leaseMillis = some deadline)
      (messages : d.messages = before ++ message :: rest)
      (free : available now message = true) (taken : ∀ m ∈ before, available now m = false)
      (counted : checkedAdd32 message.attempts 1 = some attempts) :
      Change d (.claim leaseDuration) [now] [token]
        { d with messages := before ++ leased message attempts ⟨token,deadline⟩ :: rest }
        (fun _ => .claimed (some ⟨message.id,message.value,token,attempts,deadline⟩))
  | ack (now : UInt64) (before rest : List (Message V)) (message : Message V) (lease : Lease)
      (messages : d.messages = before ++ message :: rest) (holds : message.lease = some lease)
      (unexpired : now < lease.expiresAtMillis) :
      Change d (.ack message.id lease.token) [now] [] { d with messages := before ++ rest }
        (fun _ => .ack .acknowledged)

theorem insertMessage_spec {d : Document V} (message : Message V)
    (hi : Increasing Message.id d.messages) (hnew : ∀ m ∈ d.messages, m.id ≠ message.id) :
    Increasing Message.id (insertMessage d message).messages ∧
      ∃ before rest, d.messages = before ++ rest ∧
        (insertMessage d message).messages = before ++ message :: rest := by
  have hp : d.messages.Pairwise (fun a b => decide (b.id < message.id) = true →
      decide (a.id < message.id) = true) := by
    refine hi.imp ?_
    intro a b hab hb
    simp only [decide_eq_true_eq] at hb ⊢
    exact lt_trans hab hb
  obtain ⟨l,r,he,hl,hlt,hge⟩ := partitionPoint_spec hp
  have hm : (insertMessage d message).messages = l ++ message :: r := by
    simp only [insertMessage]
    rw [← hl,he]
    exact insertIdx_length_append l r message
  refine ⟨?_,l,r,he,hm⟩
  rw [hm]
  rw [he] at hi hnew
  refine hi.insert_between (fun a ha => by simpa using hlt a ha) ?_
  intro a ha
  have hle : message.id ≤ a.id := by simpa using hge a ha
  exact lt_of_le_of_ne hle (Ne.symm (hnew a (List.mem_append_right _ ha)))

theorem position_split {α : Type} {p : α → Bool} {xs : List α} {i : Fin xs.length}
    (h : xs.findFinIdx? p = some i) :
    ∃ before rest, xs = before ++ xs[i] :: rest ∧ p xs[i] = true ∧
      (∀ x ∈ before, p x = false) ∧ ∀ y, xs.set i y = before ++ y :: rest := by
  obtain ⟨hi,hlt⟩ := List.findFinIdx?_eq_some_iff.mp h
  refine ⟨xs.take i,xs.drop (i + 1),by simp,hi,?_,?_⟩
  · intro x hx
    obtain ⟨j,hj,rfl⟩ := List.mem_take_iff_getElem.mp hx
    exact Bool.not_eq_true _ ▸ hlt ⟨j,by omega⟩ (Fin.lt_def.mpr (by simp; omega))
  · intro y
    rw [List.set_eq_take_append_cons_drop,if_pos i.isLt]

inductive Selection (ε : Type) (now deadline : UInt64) (d : Document V) :
    Plan (Document V) (Error ε) (Outcome V) → Prop
  | nothing (taken : ∀ m ∈ d.messages, available now m = false) :
      Selection ε now deadline d (.respond (.ok (.claimed none)))
  | exhausted (before rest : List (Message V)) (message : Message V)
      (messages : d.messages = before ++ message :: rest)
      (free : available now message = true) (taken : ∀ m ∈ before, available now m = false)
      (full : checkedAdd32 message.attempts 1 = none) :
      Selection ε now deadline d (.generate (fun _ => .respond (.error .attemptOverflow)))
  | granted (before rest : List (Message V)) (message : Message V) (attempts : UInt32)
      (messages : d.messages = before ++ message :: rest)
      (free : available now message = true) (taken : ∀ m ∈ before, available now m = false)
      (counted : checkedAdd32 message.attempts 1 = some attempts) :
      Selection ε now deadline d (.generate (fun token =>
        .commit { d with messages := before ++ leased message attempts ⟨token,deadline⟩ :: rest }
          (fun _ => .claimed (some ⟨message.id,message.value,token,attempts,deadline⟩))))

theorem claimPlan_selection (now deadline : UInt64) (d : Document V) :
    Selection ε now deadline d (claimPlan now deadline d) := by
  cases hf : d.messages.findFinIdx? (available now) with
  | none =>
      have hp : claimPlan (ε := ε) now deadline d = .respond (.ok (.claimed none)) := by
        simp only [claimPlan,hf]
      rw [hp]
      refine .nothing (fun m hm => ?_)
      simpa using List.findFinIdx?_eq_none_iff.mp hf m hm
  | some index =>
      obtain ⟨before,rest,hsplit,hfree,htaken,hset⟩ := position_split hf
      have hget : d.messages.get index = d.messages[index] := rfl
      cases ha : checkedAdd32 d.messages[index].attempts 1 with
      | none =>
          have hp : claimPlan (ε := ε) now deadline d =
              .generate (fun _ => .respond (.error .attemptOverflow)) := by
            simp only [claimPlan,hf,hget,ha]
          rw [hp]
          exact .exhausted before rest _ hsplit hfree htaken ha
      | some attempts =>
          have hp : claimPlan (ε := ε) now deadline d = .generate (fun token =>
              .commit { d with messages :=
                  before ++ leased d.messages[index] attempts ⟨token,deadline⟩ :: rest }
                (fun _ => .claimed (some ⟨d.messages[index].id,d.messages[index].value,token,
                  attempts,deadline⟩))) := by
            simp only [claimPlan,hf,hget,ha,hset]
          rw [hp]
          exact .granted before rest _ attempts hsplit hfree htaken ha

inductive Settlement (ε : Type) (id : MessageId) (token : LeaseToken) (now : UInt64)
    (d : Document V) : Plan (Document V) (Error ε) (Outcome V) → Prop
  | missing (absent : ∀ m ∈ d.messages, m.id ≠ id) :
      Settlement ε id token now d (.respond (.ok (.ack .notFound)))
  | mismatch (message : Message V) (mem : message ∈ d.messages) (named : message.id = id)
      (other : ∀ l, message.lease = some l → l.token ≠ token) :
      Settlement ε id token now d (.respond (.ok (.ack .leaseMismatch)))
  | expired (message : Message V) (lease : Lease) (mem : message ∈ d.messages)
      (named : message.id = id) (holds : message.lease = some lease) (same : lease.token = token)
      (late : lease.expiresAtMillis ≤ now) :
      Settlement ε id token now d (.respond (.ok (.ack .leaseExpired)))
  | acknowledged (before rest : List (Message V)) (message : Message V) (lease : Lease)
      (messages : d.messages = before ++ message :: rest) (named : message.id = id)
      (holds : message.lease = some lease) (same : lease.token = token)
      (intime : now < lease.expiresAtMillis) :
      Settlement ε id token now d
        (.commit { d with messages := before ++ rest } (fun _ => .ack .acknowledged))

theorem ackPlan_settlement (id : MessageId) (token : LeaseToken) (now : UInt64) {d : Document V}
    (hi : Increasing Message.id d.messages) :
    Settlement ε id token now d (ackPlan id token now d) := by
  unfold ackPlan
  cases hs : binarySearchByKey d.messages id Message.id with
  | error index =>
      obtain ⟨l,r,hsplit,-,hlt,hgt⟩ := binarySearchByKey_error hi hs
      refine .missing (fun m hm => ?_)
      rcases List.mem_append.mp (hsplit ▸ hm) with hm | hm
      · exact ne_of_lt (hlt m hm)
      · exact ne_of_gt (hgt m hm)
  | ok index =>
      obtain ⟨before,message,rest,hsplit,rfl,hid⟩ := binarySearchByKey_ok hi hs
      have hmem : message ∈ d.messages := by simp [hsplit]
      have hget : d.messages[before.length]? = some message := by simp [hsplit]
      have herase : d.messages.eraseIdx before.length = before ++ rest := by
        rw [hsplit,List.eraseIdx_append_of_length_le le_rfl]
        simp
      simp only [hget,herase,Option.bind_some]
      cases hl : message.lease with
      | none => exact .mismatch message hmem hid (by simp [hl])
      | some lease =>
          simp only
          split
          · rename_i htoken
            exact .mismatch message hmem hid (by simpa [hl] using htoken)
          · rename_i htoken
            split
            · rename_i hexp
              exact .expired message lease hmem hid hl (not_ne_iff.mp htoken) hexp
            · rename_i hexp
              exact .acknowledged before rest message lease hsplit hid hl (not_ne_iff.mp htoken)
                (UInt64.not_le.mp hexp)

theorem claimPlan_inv {now deadline : UInt64} {d d' : Document V} {ids : List Uuid}
    {reply : Version → Outcome V} {leaseMillis : UInt64} (leaseDuration : Duration)
    (hpos : 0 < leaseMillis) (hexp : checkedAdd64 now leaseMillis = some deadline)
    (h : (claimPlan (ε := ε) now deadline d).after ids = some (.commit d' reply)) :
    Change d (.claim leaseDuration) [now] ids d' reply := by
  have hs := claimPlan_selection (ε := ε) now deadline d
  generalize claimPlan now deadline d = plan at h hs
  cases hs with
  | nothing taken => simp at h
  | exhausted before rest message messages free taken full =>
      rcases Plan.after_generate.mp h with ⟨-,hc⟩ | ⟨token,ids,rfl,hc⟩
      · simp at hc
      · simp at hc
  | granted before rest message attempts messages free taken counted =>
      rcases Plan.after_generate.mp h with ⟨-,hc⟩ | ⟨token,ids,rfl,hc⟩
      · simp at hc
      · obtain ⟨rfl,hc'⟩ := Plan.after_commit.mp hc
        obtain ⟨rfl,rfl⟩ := Plan.commit.inj hc'
        exact .claim leaseDuration leaseMillis now deadline token before rest message attempts
          hpos hexp messages free taken counted

theorem ackPlan_inv {now : UInt64} {id : MessageId} {token : LeaseToken} {d d' : Document V}
    {ids : List Uuid} {reply : Version → Outcome V} (hi : Increasing Message.id d.messages)
    (h : (ackPlan (ε := ε) id token now d).after ids = some (.commit d' reply)) :
    Change d (.ack id token) [now] ids d' reply := by
  have hs := ackPlan_settlement (ε := ε) id token now hi
  generalize ackPlan id token now d = plan at h hs
  cases hs with
  | missing | mismatch | expired => simp at h
  | acknowledged before rest message lease messages named holds same intime =>
      obtain ⟨rfl,hc⟩ := Plan.after_commit.mp h
      obtain ⟨rfl,rfl⟩ := Plan.commit.inj hc
      subst named same
      exact .ack now before rest message lease messages holds intime

theorem commit_inv {op : Op V} {nows : List UInt64} {ids : List Uuid} {d d' : Document V}
    {reply : Version → Outcome V} (hi : Increasing Message.id d.messages)
    (h : ∃ first, (procedure (ε := ε) op).after nows = some (.transact first) ∧
      (first d).after ids = some (.commit d' reply)) : Change d op nows ids d' reply := by
  obtain ⟨first,hf,hp⟩ := h
  cases op with
  | publish value =>
      obtain ⟨rfl,hq⟩ := Procedure.after_transact.mp hf
      obtain rfl := Procedure.transact.inj hq
      rcases Plan.after_generate.mp hp with ⟨-,hc⟩ | ⟨id,rest,rfl,hc⟩
      · simp at hc
      · obtain ⟨rfl,hc'⟩ := Plan.after_commit.mp hc
        obtain ⟨rfl,rfl⟩ := Plan.commit.inj hc'
        exact .publish value id
  | claim leaseDuration =>
      simp only [procedure] at hf
      cases hm : (u64TryFrom leaseDuration.asMillis).filter (· > 0) with
      | none => simp [hm] at hf
      | some leaseMillis =>
          have hpos : 0 < leaseMillis := by simpa using (Option.filter_eq_some_iff.mp hm).2
          simp only [hm] at hf
          rcases Procedure.after_clock.mp hf with ⟨-,hc⟩ | ⟨now,rest,rfl,hc⟩
          · simp at hc
          · cases he : checkedAdd64 now leaseMillis with
            | none => simp [he] at hc
            | some deadline =>
                simp only [he] at hc
                obtain ⟨rfl,hq⟩ := Procedure.after_transact.mp hc
                obtain rfl := Procedure.transact.inj hq
                exact claimPlan_inv leaseDuration hpos he hp
  | ack id token =>
      rcases Procedure.after_clock.mp hf with ⟨-,hc⟩ | ⟨now,rest,rfl,hc⟩
      · simp at hc
      · obtain ⟨rfl,hq⟩ := Procedure.after_transact.mp hc
        obtain rfl := Procedure.transact.inj hq
        exact ackPlan_inv hi hp
  | len | isEmpty =>
      obtain ⟨rfl,hq⟩ := Procedure.after_transact.mp hf
      obtain rfl := Procedure.transact.inj hq
      simp at hp

theorem ackPlan_respond {id : MessageId} {token : LeaseToken} {now : UInt64} {d : Document V}
    {ids : List Uuid} {result : Except (Error ε) (Outcome V)}
    (h : (ackPlan id token now d).after ids = some (.respond result)) :
    ∃ a, result = .ok (.ack a) ∧ a ≠ .acknowledged := by
  unfold ackPlan at h
  split at h
  · exact ⟨_,Plan.respond.inj (Plan.after_respond.mp h).2,by simp⟩
  · split at h
    · exact ⟨_,Plan.respond.inj (Plan.after_respond.mp h).2,by simp⟩
    · split at h
      · exact ⟨_,Plan.respond.inj (Plan.after_respond.mp h).2,by simp⟩
      · split at h
        · exact ⟨_,Plan.respond.inj (Plan.after_respond.mp h).2,by simp⟩
        · simp at h

theorem ackPlan_missing {id : MessageId} (token : LeaseToken) (now : UInt64) {d : Document V}
    (hi : Increasing Message.id d.messages) (hm : ∀ m ∈ d.messages, m.id ≠ id) :
    ackPlan (ε := ε) id token now d = .respond (.ok (.ack .notFound)) := by
  unfold ackPlan
  cases hs : binarySearchByKey d.messages id Message.id with
  | error index => rfl
  | ok index =>
      obtain ⟨before,message,rest,hd,-,hk⟩ := binarySearchByKey_ok hi hs
      exact absurd hk (hm message (by simp [hd]))

def Outcome.durable : Outcome V → Bool
  | .published _ => true
  | .claimed (some _) => true
  | .ack .acknowledged => true
  | _ => false

theorem Change.durable {op : Op V} {nows : List UInt64} {ids : List Uuid} {d d' : Document V}
    {reply : Version → Outcome V} (h : Change d op nows ids d' reply) (version : Version) :
    (reply version).durable = true := by
  cases h <;> rfl

theorem claimPlan_respond {now deadline : UInt64} {d : Document V} {ids : List Uuid}
    {result : Except (Error ε) (Outcome V)}
    (h : (claimPlan now deadline d).after ids = some (.respond result)) :
    result = .error .attemptOverflow ∨ result = .ok (.claimed none) := by
  have hs := claimPlan_selection (ε := ε) now deadline d
  generalize claimPlan now deadline d = plan at h hs
  cases hs with
  | nothing taken => exact .inr (Plan.respond.inj (Plan.after_respond.mp h).2)
  | exhausted before rest message messages free taken full =>
      rcases Plan.after_generate.mp h with ⟨-,hc⟩ | ⟨token,ids,rfl,hc⟩
      · simp at hc
      · exact .inl (Plan.respond.inj (Plan.after_respond.mp hc).2)
  | granted before rest message attempts messages free taken counted =>
      rcases Plan.after_generate.mp h with ⟨-,hc⟩ | ⟨token,ids,rfl,hc⟩ <;> simp at hc

theorem respond_inv {op : Op V} {nows : List UInt64} {ids : List Uuid} {d : Document V}
    {result : Except (Error ε) (Outcome V)}
    (h : ∃ first, (procedure op).after nows = some (.transact first) ∧
      (first d).after ids = some (.respond result)) :
    result = .error .attemptOverflow ∨ ∃ outcome, result = .ok outcome ∧ outcome.durable = false := by
  obtain ⟨first,hf,hp⟩ := h
  cases op with
  | publish value =>
      obtain rfl := Procedure.transact.inj (Procedure.after_transact.mp hf).2
      rcases Plan.after_generate.mp hp with ⟨-,hc⟩ | ⟨id,rest,rfl,hc⟩ <;> simp at hc
  | claim leaseDuration =>
      simp only [procedure] at hf
      split at hf
      · simp at hf
      · rcases Procedure.after_clock.mp hf with ⟨-,hc⟩ | ⟨now,rest,rfl,hc⟩
        · simp at hc
        · split at hc
          · simp at hc
          · obtain rfl := Procedure.transact.inj (Procedure.after_transact.mp hc).2
            exact (claimPlan_respond hp).imp_right (fun he => ⟨_,he,rfl⟩)
  | ack id token =>
      rcases Procedure.after_clock.mp hf with ⟨-,hc⟩ | ⟨now,rest,rfl,hc⟩
      · simp at hc
      · obtain rfl := Procedure.transact.inj (Procedure.after_transact.mp hc).2
        obtain ⟨a,rfl,ha⟩ := ackPlan_respond hp
        exact .inr ⟨_,rfl,by cases a <;> first | rfl | exact absurd rfl ha⟩
  | len | isEmpty =>
      obtain rfl := Procedure.transact.inj (Procedure.after_transact.mp hf).2
      exact .inr ⟨_,Plan.respond.inj (Plan.after_respond.mp hp).2,rfl⟩

theorem reject_error {op : Op V} {nows : List UInt64} {result : Except (Error ε) (Outcome V)}
    (h : (procedure op).after nows = some (.respond result)) :
    result = .error .invalidLeaseDuration := by
  cases op with
  | publish value => simp [procedure] at h
  | claim leaseDuration =>
      simp only [procedure] at h
      split at h
      · exact Procedure.respond.inj (Procedure.after_respond.mp h).2
      · rcases Procedure.after_clock.mp h with ⟨-,hc⟩ | ⟨now,rest,rfl,hc⟩
        · simp at hc
        · split at hc
          · exact Procedure.respond.inj (Procedure.after_respond.mp hc).2
          · simp at hc
  | ack id token =>
      rcases Procedure.after_clock.mp h with ⟨-,hc⟩ | ⟨now,rest,rfl,hc⟩ <;> simp at hc
  | len | isEmpty => simp [procedure] at h

theorem Change.keeps {op : Op V} {nows : List UInt64} {ids : List Uuid} {d d' : Document V}
    {reply : Version → Outcome V} (h : Change d op nows ids d' reply)
    (hi : Increasing Message.id d.messages)
    (hnew : ∀ id ∈ ids, id ∉ d.messages.map Message.id) :
    d'.toHeader = d.toHeader ∧ Increasing Message.id d'.messages ∧
      ∀ k ∈ d'.messages.map Message.id, k ∈ d.messages.map Message.id ∨ k ∈ ids := by
  cases h with
  | publish value id =>
      obtain ⟨hinc,before,rest,hd,hd'⟩ := insertMessage_spec ⟨id,value,0,none⟩ hi
        (fun m hm he => hnew id (by simp) (List.mem_map.mpr ⟨m,hm,he⟩))
      refine ⟨rfl,hinc,fun k hk => ?_⟩
      rw [hd'] at hk
      rw [hd]
      simp only [List.map_append,List.map_cons,List.mem_append,List.mem_cons,
        List.not_mem_nil,or_false] at hk ⊢
      tauto
  | claim leaseDuration leaseMillis now deadline token before rest message attempts hpos hexp hd =>
      have hids : (before ++ leased message attempts ⟨token,deadline⟩ :: rest).map Message.id =
          d.messages.map Message.id := by
        simp [hd,leased]
      refine ⟨rfl,?_,fun k hk => .inl (hids ▸ hk)⟩
      rw [hd] at hi
      exact hi.replace_key rfl
  | ack now before rest message lease hd =>
      have hsub : (before ++ rest).Sublist d.messages := by
        rw [hd]
        exact (List.sublist_cons_self message rest).append_left before
      exact ⟨rfl,hi.sublist hsub,fun k hk => .inl ((hsub.map Message.id).subset hk)⟩

theorem keeps {queue : Queue V} (hrt : queue.codec.RoundTrips 3) (op : Op V) :
    (queue.medium (ε := ε)).Keeps (fun d => d.messages.map Message.id) (procedure op) := by
  intro nows ids d d' reply b₀ b hd hp hnew hb
  obtain ⟨-,hhead,hinc⟩ := decode_eq_ok.mp hd
  obtain ⟨hh',hinc',hkeys⟩ := (commit_inv hinc hp).keeps hinc hnew
  obtain ⟨b',hb',hdec⟩ := encode_roundTrip (ε := ε) hrt (hh'.trans hhead) hinc'
  obtain rfl : b = b' := Except.ok.inj (hb.symm.trans hb')
  exact ⟨d',hdec,hkeys⟩

end Queue

end Objsds
