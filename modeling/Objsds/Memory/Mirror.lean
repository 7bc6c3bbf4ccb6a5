import Mathlib.Logic.Equiv.Basic
import Objsds.Memory.Tokens
import Objsds.Store.Ideal

namespace Objsds

open Foundation

variable {ε : Type}

inductive Outcome where
  | found (object : Option Object)
  | created (version : Version)
  | alreadyExists (observed : Version)
  | replaced (version : Version)
  | conflict (observed : Option Version)
  | failed
deriving DecidableEq

def Request.outcome : (q : Request) → q.Response ε → Outcome
  | .get _, .ok object => .found object
  | .get _, .error _ => .failed
  | .create _ _, .created version => .created version
  | .create _ _, .alreadyExists observed => .alreadyExists observed
  | .create _ _, _ => .failed
  | .replace _ _ _, .replaced version => .replaced version
  | .replace _ _ _, .conflict observed => .conflict observed
  | .replace _ _ _, _ => .failed

section Renaming

variable (ρ : Version → Version)

def Object.rename (o : Object) : Object := ⟨o.bytes,ρ o.version⟩

def Request.rename : Request → Request
  | .replace l x b => .replace l (ρ x) b
  | q => q

def Outcome.rename : Outcome → Outcome
  | .found object => .found (object.map (Object.rename ρ))
  | .created version => .created (ρ version)
  | .alreadyExists observed => .alreadyExists (ρ observed)
  | .replaced version => .replaced (ρ version)
  | .conflict observed => .conflict (observed.map ρ)
  | .failed => .failed

end Renaming

theorem exists_renaming {α : Type} [DecidableEq α] {xs : List α} {f : ℕ → α} (hx : xs.Nodup)
    (hf : Function.Injective f) : ∃ ρ : Equiv.Perm α, ∀ k v, xs[k]? = some v → ρ v = f k := by
  induction xs using List.reverseRecOn with
  | nil => exact ⟨Equiv.refl α,by simp⟩
  | append_singleton xs x ih =>
      obtain ⟨hxs,-,hd⟩ := List.nodup_append.mp hx
      obtain ⟨ρ,hρ⟩ := ih hxs
      refine ⟨ρ.trans (Equiv.swap (ρ x) (f xs.length)),fun k v hk => ?_⟩
      rw [Equiv.trans_apply]
      rcases Nat.lt_or_ge k xs.length with hlt | hge
      · rw [List.getElem?_append_left hlt] at hk
        have hv : v ≠ x := fun he => hd v (List.mem_of_getElem? hk) x (by simp) he
        rw [Equiv.swap_apply_of_ne_of_ne,hρ k v hk]
        · exact fun he => hv (ρ.injective he)
        · rw [hρ k v hk]
          exact fun he => by
            have := hf he
            omega
      · rw [List.getElem?_append_right hge,List.getElem?_singleton] at hk
        split at hk
        · obtain rfl := Option.some.inj hk
          rw [Equiv.swap_apply_left]
          congr 1
          omega
        · simp at hk

namespace Memory

def answer (s : State) (q : Request) : State × Outcome :=
  ((handle s q).2,q.outcome (handle s q).1)

-- The same objects under other versions, `k` of which have been given out.
structure Mirrors (ρ : Version → Version) (k : ℕ) (s : Ideal.State) (μ : State) : Prop where
  objects : ∀ l, μ.objects l = (s.objects l).map (Object.rename ρ)
  counter : μ.nextVersion.toNat = k

variable {ρ : Version → Version} {k : ℕ} {s s' : Ideal.State} {μ : State}

theorem Mirrors.default (ρ : Version → Version) :
    Mirrors ρ 0 ⟨fun _ => none,[]⟩ State.default :=
  ⟨fun _ => rfl,rfl⟩

theorem Mirrors.put (h : Mirrors ρ k s μ) {v : Version} (l : Location) (b : Bytes)
    (hv : ρ v = token (k + 1)) (hk : k + 1 < 2 ^ 64) :
    μ.version.1 = ρ v ∧
      Mirrors ρ (k + 1) (s.put l ⟨b,v⟩)
        { μ.version.2 with objects := μ.objects.put l ⟨b,μ.version.1⟩ } := by
  have hversion : μ.version.1 = ρ v := by
    rw [version_eq (by rw [h.counter]; exact hk),h.counter,hv]
  refine ⟨hversion,fun l' => ?_,?_⟩
  · rw [hversion]
    by_cases hl : l' = l
    · subst hl
      simp [Ideal.State.put,Objects.put_self,Object.rename]
    · simp [Ideal.State.put,Objects.put_other _ hl,h.objects]
  · have := h.counter
    simp only [State.version,UInt64.toNat_add,UInt64.toNat_one]
    omega

theorem Mirrors.step (hρ : Function.Injective ρ) {q : Request} {r : q.Response ε}
    (h : Mirrors ρ k s μ) (hs : Ideal.Step False s q r s')
    (hv : ∀ v, mutation ⟨.store q,r⟩ = some v → ρ v = token (k + 1) ∧ k + 1 < 2 ^ 64) :
    (answer μ (q.rename ρ)).2 = (q.outcome r).rename ρ ∧
      Mirrors ρ (k + (mutation (⟨.store q,r⟩ : Sigma (Reply ε))).toList.length) s'
        (answer μ (q.rename ρ)).1 := by
  cases hs with
  | got l =>
      simp only [answer,Request.rename,handle,get,Request.outcome,Outcome.rename,h.objects]
      exact ⟨trivial,h⟩
  | getFailed l e hx => exact hx.elim
  | created l b v ha hf =>
      obtain ⟨hv,hk⟩ := hv v rfl
      have hm : μ.objects l = none := by rw [h.objects,ha]; rfl
      obtain ⟨hversion,hput⟩ := h.put l b hv hk
      simp only [answer,Request.rename,handle,create,hm,Request.outcome,Outcome.rename]
      exact ⟨congrArg _ hversion,hput⟩
  | alreadyExists l b o hp =>
      have hm : μ.objects l = some (o.rename ρ) := by rw [h.objects,hp]; rfl
      simp only [answer,Request.rename,handle,create,hm,Request.outcome,Outcome.rename]
      exact ⟨rfl,h⟩
  | createFailed l b e hx => exact hx.elim
  | createUncertain l b e v ha hf hx => exact hx.elim
  | replaced l o b v hc hf =>
      obtain ⟨hv,hk⟩ := hv v rfl
      have hm : μ.objects l = some (o.rename ρ) := by rw [h.objects,hc]; rfl
      obtain ⟨hversion,hput⟩ := h.put l b hv hk
      simp only [answer,Request.rename,handle,replace,hm,Object.rename,if_true,Request.outcome,
        Outcome.rename]
      exact ⟨congrArg _ hversion,hput⟩
  | conflict l x b hstale =>
      have hanswer : answer μ (.replace l (ρ x) b) =
          (μ,.conflict (((s.objects l).map Object.version).map ρ)) := by
        simp only [answer,handle,replace,h.objects]
        cases ho : s.objects l with
        | none => rfl
        | some o =>
            have hne : ρ o.version ≠ ρ x := by
              intro he
              rw [ho] at hstale
              exact hstale (congrArg some (hρ he))
            simp only [Option.map_some,Object.rename,hne,if_false,Request.outcome]
      rw [Request.rename,hanswer]
      exact ⟨rfl,h⟩
  | replaceFailed l x b e hx => exact hx.elim
  | replaceUncertain l o b e v hc hf hx => exact hx.elim

end Memory

end Objsds
