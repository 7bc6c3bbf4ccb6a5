import Objsds.Queue.Reference
import Objsds.Queue.Stock

namespace Objsds

open Foundation

namespace Queue

variable {ε V : Type} {now : UInt64} {d : Document V}

section Oldest

theorem exists_selected (hi : Increasing Message.id d.messages) {m : Message V}
    (hm : m ∈ d.messages) (hfree : Free now m) : ∃ message, Selected now d message := by
  obtain ⟨message,hfind⟩ : ∃ message, d.messages.find? (available now) = some message := by
    refine Option.isSome_iff_exists.mp (List.find?_isSome.mpr ⟨m,hm,available_iff.mpr hfree⟩)
  obtain ⟨havail,before,rest,hsplit,htaken⟩ := List.find?_eq_some_iff_append.mp hfind
  refine ⟨message,by simp [hsplit],available_iff.mp havail,?_⟩
  intro m' hm' hfree'
  rw [hsplit] at hi hm'
  rcases List.mem_append.mp hm' with hb | hr
  · have := htaken m' hb
    simp [available_iff.mpr hfree'] at this
  · rcases List.mem_cons.mp hr with rfl | hr
    · exact le_rfl
    · exact le_of_lt ((List.pairwise_cons.mp (List.pairwise_append.mp hi).2.1).1 m' hr)

theorem claim_of_selected {queue : Queue V} {o : Object} {lease : Duration} {message : Message V}
    {h : List (Sigma (Reply ε))} {result : Except (Error ε) (Outcome V)}
    (hrt : queue.codec.RoundTrips 3) (hd : queue.decode (ε := ε) o.bytes = .ok d)
    (hlease : ¬ LeaseRefused now lease) (hsel : Selected now d message)
    (hmax : message.attempts.toNat ≠ 2 ^ 32 - 1) (hu : Undisturbed o now h)
    (hf : (queue.perform (.claim lease)).Follows h (.done result)) :
    ∃ claim, result = .ok (.claimed (some claim)) ∧ claim.id = message.id := by
  obtain ⟨before,rest,token,attempts,deadline,-,-,-,-,hsplit,hp⟩ :=
    (claim_meets hd hu hf).granted hlease message hsel hmax
  obtain ⟨-,hhead,hi⟩ := decode_eq_ok.mp hd
  rw [hsplit] at hi
  rcases hp with ⟨b,-,-,-,rfl⟩ | ⟨e,he,-,-,-⟩
  · exact ⟨_,rfl,rfl⟩
  · obtain ⟨b,hb,-⟩ := encode_roundTrip (ε := ε)
      (d := ⟨d.toHeader,before ++ leased message attempts ⟨token,deadline⟩ :: rest⟩) hrt hhead
      (hi.replace_key rfl)
    exact absurd (hb.symm.trans he) (by simp)

end Oldest

theorem oldest_available_decides (S : ObjectStore ε) (queue : Queue V) (ops : ℕ → Op V)
    (s : S.State) (tr : Trace (Reply ε))
    (c : Config S.State (Reply ε) (Except (Error ε) (Outcome V)))
    (hrt : queue.codec.RoundTrips 3) (h : History queue S ops s tr c) :
    ∃ o d, S.objects c.world queue.location = some o ∧ queue.decode (ε := ε) o.bytes = .ok d ∧
      ∀ now lease, ¬ LeaseRefused now lease → (∃ m ∈ d.messages, Free now m) →
        ∃ message, Selected now d message ∧ (∃ h result, Undisturbed o now h ∧
          (queue.perform (ε := ε) (.claim lease)).Follows h (.done result)) ∧
          ∀ h result, Undisturbed o now h →
            (queue.perform (ε := ε) (.claim lease)).Follows h (.done result) →
            (message.attempts.toNat < 2 ^ 32 - 1 →
              ∃ claim, result = .ok (.claimed (some claim)) ∧ claim.id = message.id) ∧
            (message.attempts.toNat = 2 ^ 32 - 1 → result = .error .attemptOverflow) := by
  obtain ⟨messages,hsnap,-⟩ := h.exact hrt
  obtain ⟨o,d,ho,hd,-⟩ := hsnap.stored
  refine ⟨o,d,ho,hd,fun now lease hlease ⟨m,hm,hfree⟩ => ?_⟩
  obtain ⟨message,hsel⟩ := exists_selected (decode_eq_ok.mp hd).2.2 hm hfree
  refine ⟨message,hsel,?_,fun h result hu hf => ⟨fun hlt => ?_,fun hfull => ?_⟩⟩
  · obtain ⟨h,result,hf,hu⟩ := exists_undisturbed (queue.perform (ε := ε) (.claim lease)) o now
    exact ⟨h,result,hu,hf⟩
  · exact claim_of_selected hrt hd hlease hsel (Nat.ne_of_lt hlt) hu hf
  · exact ((claim_meets hd hu hf).overflow hlease message hsel).mpr hfull

theorem shift_oldest_available : ∃ (s : Memory.State) (tr : Trace (Reply Empty))
    (c : Config Memory.store.State (Reply Empty) (Except (Error Empty) (Outcome String))),
    History jobs Memory.store shift s tr c ∧
      ∃ o h claim, Memory.store.objects c.world jobs.location = some o ∧ Undisturbed o 1700 h ∧
        (jobs.perform (ε := Empty) (.claim ⟨1,0⟩)).Follows h (.done (.ok (.claimed (some claim)))) ∧
        claim.id = 6 := by
  obtain ⟨s,tr,c,h,hsnap,-⟩ := shift_history
  obtain ⟨o,d,ho,hd,hdecides⟩ := oldest_available_decides Memory.store jobs shift s tr c
    (textCodec_roundTrips (by decide)) h
  have hmessages : d.messages = [⟨6,"b",0,none⟩] :=
    Snapshot.unique ⟨o,d,ho,hd,rfl⟩ hsnap
  have hlease : ¬ LeaseRefused 1700 ⟨1,0⟩ := by
    unfold LeaseRefused
    decide
  obtain ⟨message,hsel,⟨h',result,hu,hf⟩,hall⟩ := hdecides 1700 ⟨1,0⟩ hlease
    ⟨⟨6,"b",0,none⟩,by simp [hmessages],by simp [Free]⟩
  obtain rfl : message = ⟨6,"b",0,none⟩ := by
    have := hsel.mem
    simpa [hmessages] using this
  obtain ⟨claim,rfl,hid⟩ := (hall h' result hu hf).1 (by decide)
  exact ⟨s,tr,c,h,o,h',claim,ho,hu,hf,hid⟩

section Exhaustion

-- Two messages; the older is claimed for a millisecond whenever its lease has run out.
def hammer : ℕ → Op String
  | 0 => .publish "a"
  | 1 => .publish "b"
  | _ => .claim ⟨0,1000000⟩

def worn (k : ℕ) : Message String :=
  ⟨1,"a",UInt32.ofNat k,if k = 0 then none else some ⟨Fin.ofNat _ (k + 2),UInt64.ofNat k⟩⟩

def hammered (k : ℕ) : Document String :=
  ⟨⟨FORMAT_VERSION,KIND,"v1"⟩,[worn k,⟨2,"b",0,none⟩]⟩

theorem hammered_increasing (k : ℕ) : Increasing Message.id (hammered k).messages := by
  simp only [hammered,Increasing,List.pairwise_cons,List.mem_singleton,worn]
  refine ⟨?_,by simp,.nil⟩
  rintro m rfl
  decide

theorem worn_available {k : ℕ} : available (UInt64.ofNat k) (worn k) = true := by
  by_cases hk : k = 0
  · simp [available,worn,hk]
  · simp [available,worn,hk]

theorem worn_counted {k : ℕ} (hk : k < 2 ^ 32 - 1) :
    checkedAdd32 (worn k).attempts 1 = some (UInt32.ofNat (k + 1)) := by
  have hn : (UInt32.ofNat k).toNat = k := UInt32.toNat_ofNat_of_lt' (by unfold UInt32.size; omega)
  rw [checkedAdd32,worn,hn,if_pos (by simp; omega)]
  refine congrArg some (UInt32.toNat_inj.mp ?_)
  rw [UInt32.toNat_add,hn,UInt32.toNat_ofNat_of_lt' (by unfold UInt32.size; omega)]
  simp
  omega

theorem claimPlan_hammered {k : ℕ} (hk : k < 2 ^ 32 - 1) (deadline : UInt64) :
    claimPlan (ε := Empty) (UInt64.ofNat k) deadline (hammered k) = .generate (fun token =>
      .commit ⟨⟨FORMAT_VERSION,KIND,"v1"⟩,
          [leased (worn k) (UInt32.ofNat (k + 1)) ⟨token,deadline⟩,⟨2,"b",0,none⟩]⟩
        (fun _ => .claimed (some ⟨1,"a",token,UInt32.ofNat (k + 1),deadline⟩))) := by
  have hs := claimPlan_selection (ε := Empty) (UInt64.ofNat k) deadline (hammered k)
  generalize claimPlan (UInt64.ofNat k) deadline (hammered k) = plan at hs
  have hfirst : ∀ {before rest : List (Message String)} {message : Message String},
      (hammered k).messages = before ++ message :: rest →
      (∀ m ∈ before, available (UInt64.ofNat k) m = false) →
      before = [] ∧ message = worn k ∧ rest = [⟨2,"b",0,none⟩] := by
    intro before rest message hsplit htaken
    cases before with
    | nil => exact ⟨rfl,(List.cons.inj hsplit).1.symm,(List.cons.inj hsplit).2.symm⟩
    | cons m before =>
        have hm : worn k = m := (List.cons.inj hsplit).1
        have := htaken m (by simp)
        rw [← hm,worn_available] at this
        simp at this
  cases hs with
  | nothing taken =>
      have := taken (worn k) (by simp [hammered])
      simp [worn_available] at this
  | exhausted before rest message messages hfree taken full =>
      obtain ⟨-,rfl,-⟩ := hfirst messages taken
      rw [worn_counted hk] at full
      simp at full
  | granted before rest message attempts messages hfree taken counted =>
      obtain ⟨rfl,rfl,rfl⟩ := hfirst messages taken
      rw [worn_counted hk] at counted
      obtain rfl := Option.some.inj counted
      rfl

theorem hammered_succ (k : ℕ) :
    (⟨⟨FORMAT_VERSION,KIND,"v1"⟩,[leased (worn k) (UInt32.ofNat (k + 1))
      ⟨Fin.ofNat _ (k + 3),UInt64.ofNat (k + 1)⟩,⟨2,"b",0,none⟩]⟩ : Document String) =
      hammered (k + 1) := by
  simp [hammered,leased,worn]

theorem hammer_deadline {k : ℕ} (hk : k < 2 ^ 32) :
    checkedAdd64 (UInt64.ofNat k) 1 = some (UInt64.ofNat (k + 1)) := by
  have hn : (UInt64.ofNat k).toNat = k := UInt64.toNat_ofNat_of_lt' (by unfold UInt64.size; omega)
  rw [checkedAdd64,hn,if_pos (by simp; omega)]
  refine congrArg some (UInt64.toNat_inj.mp ?_)
  rw [UInt64.toNat_add,hn,UInt64.toNat_ofNat_of_lt' (by unfold UInt64.size; omega)]
  simp
  omega

structure Worn (s : Memory.State) (k : ℕ) (tr : Trace (Reply Empty))
    (c : Config Memory.store.State (Reply Empty) (Except (Error Empty) (Outcome String))) :
    Prop where
  run : Run Memory.store.Env ⟨s,fun i => jobs.perform (hammer i)⟩ tr c
  object : ∃ o, c.world.objects jobs.location = some o ∧
    jobs.decode (ε := Empty) o.bytes = .ok (hammered k)
  ids : issued tr = (List.range (k + 2)).map (fun j => Fin.ofNat _ (j + 1))
  count : (writes tr).length = k + 2
  waiting : ∀ j, k + 2 ≤ j → c.calls j = jobs.perform (hammer j)

theorem issued_events (i : ℕ) (h : List (Sigma (Reply Empty))) :
    issued (Solo.events i h) = identifiers h := by
  simp only [issued,Solo.events,List.map_map]
  exact congrArg identifiers (List.map_id h)

theorem exists_worn : ∃ s tr c, Worn s 0 tr c ∧ ∃ o, s.objects jobs.location = some o ∧
    jobs.emptyBytes (ε := Empty) = .ok o.bytes ∧ s = stocked jobs.location o.bytes := by
  let header : Header := ⟨FORMAT_VERSION,KIND,"v1"⟩
  have hrt : jobs.codec.RoundTrips 3 := textCodec_roundTrips (by decide)
  obtain ⟨b₀,hb₀,hd₀⟩ := encode_roundTrip (ε := Empty) (d := ⟨header,[]⟩) hrt rfl .nil
  obtain ⟨b₁,hb₁,hd₁⟩ := encode_roundTrip (ε := Empty) (d := ⟨header,[⟨1,"a",0,none⟩]⟩) hrt rfl
    (List.pairwise_singleton ..)
  obtain ⟨b₂,hb₂,hd₂⟩ := encode_roundTrip (ε := Empty) (d := hammered 0) hrt rfl
    (hammered_increasing 0)
  have ho := stocked_objects jobs.location b₀
  have ho₁ := replaced_objects (stocked jobs.location b₀) jobs.location b₁
  have ho₂ := replaced_objects (replaced (stocked jobs.location b₀) jobs.location b₁) jobs.location b₂
  have hfirst := @solo_publish _ _ _ _ _ jobs 0 "a" 1 ho hd₀ hb₁
  have hsecond := @solo_publish _ _ _ _ _ jobs 1 "b" 2 ho₁ hd₁ hb₂
  obtain ⟨c₁,hr₁,hw₁,-,hj₁⟩ := hfirst.run
    (c := ⟨stocked jobs.location b₀,fun i => jobs.perform (hammer i)⟩) rfl rfl
  obtain ⟨c,hr,hw,-,hj⟩ := Solo.after hr₁ hsecond hw₁ (hj₁ 1 (by decide))
  refine ⟨_,_,c,⟨hr,⟨_,hw ▸ ho₂,hd₂⟩,rfl,rfl,?_⟩,_,ho,hb₀,rfl⟩
  intro j hj₂
  rw [hj j (by omega),hj₁ j (by omega)]

theorem Worn.succ {s : Memory.State} {k : ℕ} {tr : Trace (Reply Empty)}
    {c : Config Memory.store.State (Reply Empty) (Except (Error Empty) (Outcome String))}
    (h : Worn s k tr c) (hk : k < 2 ^ 32 - 1) : ∃ tr' c', Worn s (k + 1) tr' c' := by
  have hrt : jobs.codec.RoundTrips 3 := textCodec_roundTrips (by decide)
  obtain ⟨o,ho,hd⟩ := h.object
  obtain ⟨b,hb,hdec⟩ := encode_roundTrip (ε := Empty) (d := hammered (k + 1)) hrt rfl
    (hammered_increasing (k + 1))
  have hclaim := solo_claim jobs (k + 2) (Fin.ofNat _ (k + 3)) ho hd
    (by decide : (u64TryFrom (Duration.asMillis ⟨0,1000000⟩)).filter (· > 0) = some 1)
    (hammer_deadline (by omega)) (claimPlan_hammered hk _) (by rw [hammered_succ]) hb
  obtain ⟨c',hr,hw,-,hj⟩ := Solo.after h.run hclaim rfl (h.waiting (k + 2) le_rfl)
  refine ⟨_,c',hr,⟨_,hw ▸ replaced_objects ..,hdec⟩,?_,?_,?_⟩
  · rw [issued_append,h.ids,issued_events,List.range_succ (n := k + 2),List.map_append]
    rfl
  · rw [writes_append,List.length_append]
    exact congrArg (· + 1) h.count
  · intro j hj₂
    rw [hj j (by omega),h.waiting j (by omega)]

theorem worn_reached (k : ℕ) (hk : k ≤ 2 ^ 32 - 1) : ∃ s tr c, Worn s k tr c ∧
    ∃ o, s.objects jobs.location = some o ∧ jobs.emptyBytes (ε := Empty) = .ok o.bytes ∧
      s = stocked jobs.location o.bytes := by
  induction k with
  | zero => exact exists_worn
  | succ k ih =>
      obtain ⟨s,tr,c,hworn,hstart⟩ := ih (by omega)
      obtain ⟨tr',c',hworn'⟩ := hworn.succ (by omega)
      exact ⟨s,tr',c',hworn',hstart⟩

theorem ids_nodup {n : ℕ} (hn : n < 2 ^ 128) :
    ((List.range n).map (fun j => (Fin.ofNat (2 ^ 128) (j + 1) : Uuid))).Nodup := by
  refine List.Nodup.map_on ?_ List.nodup_range
  intro x hx y hy he
  rw [List.mem_range] at hx hy
  have hv := congrArg Fin.val he
  simp only [Fin.val_ofNat] at hv
  rw [Nat.mod_eq_of_lt (by omega),Nat.mod_eq_of_lt (by omega)] at hv
  omega

theorem exhausted_message_blocks : ∃ (s : Memory.State) (tr : Trace (Reply Empty))
    (c : Config Memory.store.State (Reply Empty) (Except (Error Empty) (Outcome String)))
    (o : Object) (d : Document String) (h : List (Sigma (Reply Empty))),
    History jobs Memory.store hammer s tr c ∧
      Memory.store.objects c.world jobs.location = some o ∧
      jobs.decode (ε := Empty) o.bytes = .ok d ∧
      ¬ LeaseRefused (UInt64.ofNat (2 ^ 32 - 1)) ⟨0,1000000⟩ ∧
      (∃ m ∈ d.messages, Free (UInt64.ofNat (2 ^ 32 - 1)) m ∧ m.attempts.toNat < 2 ^ 32 - 1) ∧
      Undisturbed o (UInt64.ofNat (2 ^ 32 - 1)) h ∧
      (jobs.perform (ε := Empty) (.claim ⟨0,1000000⟩)).Follows h (.done (.error .attemptOverflow)) := by
  obtain ⟨s,tr,c,hworn,o₀,ho₀,hempty,rfl⟩ := worn_reached (2 ^ 32 - 1) (Nat.le_refl _)
  obtain ⟨o,ho,hd⟩ := hworn.object
  have hlease : ¬ LeaseRefused (UInt64.ofNat (2 ^ 32 - 1)) ⟨0,1000000⟩ := by
    unfold LeaseRefused
    decide
  have hsel : Selected (UInt64.ofNat (2 ^ 32 - 1)) (hammered (2 ^ 32 - 1)) (worn (2 ^ 32 - 1)) := by
    refine ⟨by simp [hammered],available_iff.mp worn_available,?_⟩
    intro m hm _
    simp only [hammered,List.mem_cons,List.not_mem_nil,or_false] at hm
    rcases hm with rfl | rfl
    · exact le_rfl
    · exact (by decide : (1 : Uuid) ≤ 2)
  obtain ⟨h,result,hf,hu⟩ := exists_undisturbed (jobs.perform (ε := Empty) (.claim ⟨0,1000000⟩)) o
    (UInt64.ofNat (2 ^ 32 - 1))
  have hover := ((claim_meets hd hu hf).overflow hlease _ hsel).mpr (by simp [worn])
  subst hover
  have hcoh := stocked_coherent hworn.run (by rw [hworn.count]; omega)
  have hfresh : (issued tr).Nodup := by
    rw [hworn.ids]
    exact ids_nodup (by omega)
  refine ⟨stocked jobs.location o₀.bytes,tr,c,o,_,h,⟨⟨_,ho₀,hempty⟩,hworn.run,hfresh,hcoh⟩,ho,hd,hlease,
    ⟨⟨2,"b",0,none⟩,by simp [hammered],.inl rfl,by decide⟩,hu,hf⟩

end Exhaustion

end Queue

end Objsds
