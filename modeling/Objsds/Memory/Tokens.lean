import Mathlib.Data.List.Nodup
import Objsds.Memory.Store
import Objsds.Store.Truthful

namespace Objsds

open Foundation

namespace Memory

def token (n : ℕ) : Version := ⟨toString n⟩

theorem token_injective : Function.Injective token := by
  intro n k h
  have hs : toString n = toString k := congrArg Version.asStr h
  rw [Nat.toString_eq_ofList_toDigits,Nat.toString_eq_ofList_toDigits,String.ofList_inj] at hs
  rw [← Nat.ofDigitChars_ten_toDigits (n := n),hs,Nat.ofDigitChars_ten_toDigits]

-- Every stored version is one the counter has already passed.
def State.Issued (s : State) : Prop :=
  ∀ l o, s.objects l = some o → ∃ n ≤ s.nextVersion.toNat, o.version = token n

theorem handle_mutation {s s' : State} {q : Request} {r : q.Response Empty} {v : Version}
    (h : handle s q = (r,s')) (hm : mutation ⟨.store q,r⟩ = some v) :
    v = s.version.1 ∧ s'.nextVersion = s.nextVersion + 1 := by
  cases q with
  | get l => simp [mutation] at hm
  | create l b =>
      simp only [handle,create] at h
      cases hl : s.objects l with
      | some o =>
          simp only [hl,Prod.mk.injEq] at h
          obtain ⟨rfl,-⟩ := h
          simp [mutation,CreateReply.written] at hm
      | none =>
          simp only [hl,Prod.mk.injEq] at h
          obtain ⟨rfl,rfl⟩ := h
          exact ⟨(Option.some.inj hm).symm,rfl⟩
  | replace l x b =>
      simp only [handle,replace] at h
      cases hl : s.objects l with
      | none =>
          simp only [hl,Prod.mk.injEq] at h
          obtain ⟨rfl,-⟩ := h
          simp [mutation,ReplaceReply.written] at hm
      | some o =>
          simp only [hl] at h
          split at h
          · simp only [Prod.mk.injEq] at h
            obtain ⟨rfl,rfl⟩ := h
            exact ⟨(Option.some.inj hm).symm,rfl⟩
          · simp only [Prod.mk.injEq] at h
            obtain ⟨rfl,-⟩ := h
            simp [mutation,ReplaceReply.written] at hm

theorem env_mutation {s s' : store.State} {ev : Event (Reply Empty)} {v : Version}
    (h : store.Env s ev s') (hm : mutation ev.answer = some v) :
    v = s.version.1 ∧ s'.nextVersion = s.nextVersion + 1 := by
  cases h with
  | store hs => exact handle_mutation hs hm
  | nowMillis => simp [mutation,Event.answer] at hm
  | nowV7 => simp [mutation,Event.answer] at hm

theorem store_truthful : store.Truthful := by
  intro s q r s' h
  cases q with
  | get l => exact (congrArg Prod.fst h).symm
  | create l b =>
      have h : create s l b = (r,s') := h
      unfold create at h
      cases hl : s.objects l with
      | none =>
          simp only [hl] at h
          exact .inl ⟨hl,_,(congrArg Prod.fst h).symm⟩
      | some o =>
          simp only [hl] at h
          exact .inr ⟨o,hl,(congrArg Prod.fst h).symm⟩
  | replace l x b =>
      have h : replace s l x b = (r,s') := h
      unfold replace at h
      have hmap : (store.objects s l).map Object.version = (s.objects l).map Object.version := rfl
      rw [Truthful,hmap]
      cases hl : s.objects l with
      | none =>
          simp only [hl] at h
          exact .inr ⟨by simp,(congrArg Prod.fst h).symm⟩
      | some o =>
          simp only [hl] at h
          split at h
          · rename_i hx
            exact .inl ⟨congrArg some hx,_,(congrArg Prod.fst h).symm⟩
          · rename_i hx
            exact .inr ⟨fun he => hx (Option.some.inj he),(congrArg Prod.fst h).symm⟩

section Runs

variable {α : Type} {c c' : Config store.State (Reply Empty) α} {tr : Trace (Reply Empty)}

theorem version_eq {s : State} (h : s.nextVersion.toNat + 1 < 2 ^ 64) :
    s.version.1 = token (s.nextVersion.toNat + 1) := by
  have hn : (s.nextVersion + 1).toNat = s.nextVersion.toNat + 1 := by
    rw [UInt64.toNat_add]
    exact Nat.mod_eq_of_lt h
  simp only [State.version,token,hn]

theorem writes_eq (h : Run store.Env c tr c')
    (hlt : c.world.nextVersion.toNat + (writes tr).length < 2 ^ 64) :
    writes tr =
        (List.range' (c.world.nextVersion.toNat + 1) (writes tr).length).map token ∧
      c'.world.nextVersion.toNat = c.world.nextVersion.toNat + (writes tr).length := by
  induction h with
  | nil => simp [writes]
  | @snoc tr ev m c' _ hs ih =>
      rw [writes_snoc] at hlt ⊢
      cases hm : mutation ev.answer with
      | none =>
          rw [hm] at hlt
          simp only [Option.toList_none,List.append_nil] at hlt ⊢
          rw [env_silent hs.world hm]
          exact ih hlt
      | some v =>
          rw [hm] at hlt
          simp only [Option.toList_some,List.length_append,List.length_singleton] at hlt ⊢
          obtain ⟨hw,hn⟩ := ih (by omega)
          obtain ⟨hv,hnext⟩ := env_mutation hs.world hm
          have hbound : m.world.nextVersion.toNat + 1 < 2 ^ 64 := by omega
          constructor
          · rw [List.range'_concat,List.map_append,← hw,hv,version_eq hbound,hn]
            simp only [List.map_cons,List.map_nil,Nat.one_mul]
            congr 3
            omega
          · rw [hnext,UInt64.toNat_add]
            simp only [UInt64.toNat_one]
            omega

theorem writes_nodup (h : Run store.Env c tr c')
    (hlt : c.world.nextVersion.toNat + (writes tr).length < 2 ^ 64) : (writes tr).Nodup := by
  rw [(writes_eq h hlt).1]
  exact (List.nodup_range' ..).map token_injective

theorem held_nodup (h : Run store.Env c tr c') (hs : c.world.Issued)
    (hlt : c.world.nextVersion.toNat + (writes tr).length < 2 ^ 64) (l : Location) :
    ((held (c.world.objects l) l tr).map Object.version).Nodup := by
  have hstored : ((stored l tr).map Object.version).Nodup :=
    stored_versions_sublist.nodup (writes_nodup h hlt)
  rw [held,List.map_append]
  cases ho : c.world.objects l with
  | none => simpa using hstored
  | some o =>
      refine List.nodup_append.mpr ⟨by simp,hstored,?_⟩
      intro v hv v' hv'
      obtain ⟨n,hn,hon⟩ := hs l o ho
      simp only [Option.toList_some,List.map_cons,List.map_nil,List.mem_singleton] at hv
      have hmem := stored_versions_sublist.subset hv'
      rw [(writes_eq h hlt).1] at hmem
      obtain ⟨k,hk,rfl⟩ := List.mem_map.mp hmem
      rw [hv,hon]
      intro he
      have := List.mem_range'.mp hk
      have := token_injective he
      omega

theorem coherent_of_nodup {objects : List Object} (h : (objects.map Object.version).Nodup) :
    Coherent objects := by
  intro o ho o' ho' hv
  rw [List.inj_on_of_nodup_map h ho ho' hv]

end Runs

end Memory

end Objsds
