import Objsds.Store.Truthful

namespace Objsds

open Foundation

variable {ε : Type}

namespace Ideal

structure State where
  objects : Objects
  used : List Version

def State.put (s : State) (l : Location) (o : Object) : State :=
  ⟨s.objects.put l o,o.version :: s.used⟩

-- A store whose tokens are never given out twice; it may fail a request, or leave a write in
-- doubt, only if `lax`.
inductive Step (lax : Prop) (s : State) : (q : Request) → q.Response ε → State → Prop
  | got (l : Location) : Step lax s (.get l) (.ok (s.objects l)) s
  | getFailed (l : Location) (e : ε) (excuse : lax) : Step lax s (.get l) (.error e) s
  | created (l : Location) (b : Bytes) (v : Version) (absent : s.objects l = none)
      (fresh : v ∉ s.used) : Step lax s (.create l b) (.created v) (s.put l ⟨b,v⟩)
  | alreadyExists (l : Location) (b : Bytes) (o : Object) (present : s.objects l = some o) :
      Step lax s (.create l b) (.alreadyExists o.version) s
  | createFailed (l : Location) (b : Bytes) (e : ε) (excuse : lax) :
      Step lax s (.create l b) (.failed e) s
  | createUncertain (l : Location) (b : Bytes) (e : ε) (v : Version) (absent : s.objects l = none)
      (fresh : v ∉ s.used) (excuse : lax) :
      Step lax s (.create l b) (.uncertain e v) (s.put l ⟨b,v⟩)
  | replaced (l : Location) (o : Object) (b : Bytes) (v : Version) (current : s.objects l = some o)
      (fresh : v ∉ s.used) : Step lax s (.replace l o.version b) (.replaced v) (s.put l ⟨b,v⟩)
  | conflict (l : Location) (x : Version) (b : Bytes)
      (stale : (s.objects l).map Object.version ≠ some x) :
      Step lax s (.replace l x b) (.conflict ((s.objects l).map Object.version)) s
  | replaceFailed (l : Location) (x : Version) (b : Bytes) (e : ε) (excuse : lax) :
      Step lax s (.replace l x b) (.failed e) s
  | replaceUncertain (l : Location) (o : Object) (b : Bytes) (e : ε) (v : Version)
      (current : s.objects l = some o) (fresh : v ∉ s.used) (excuse : lax) :
      Step lax s (.replace l o.version b) (.uncertain e v) (s.put l ⟨b,v⟩)

theorem Step.atomic {lax : Prop} {s s' : State} {q : Request} {r : q.Response ε}
    (h : Step lax s q r s') : Atomic s.objects q r s'.objects := by
  cases h with
  | got l => exact .got l
  | getFailed l e => exact .getFailed l e
  | created l b v ha => exact .created l b v ha
  | alreadyExists l b o hp => exact .alreadyExists l b o.version (by simp [hp])
  | createFailed l b e => exact .createFailed l b e
  | createUncertain l b e v ha => exact .createUncertain l b e v ha
  | replaced l o b v hc => exact .replaced l o b v hc
  | conflict l x b => exact .conflict l x b _
  | replaceFailed l x b e => exact .replaceFailed l x b e
  | replaceUncertain l o b e v hc => exact .replaceUncertain l o b e v hc

def store (ε : Type) (lax : Prop) : ObjectStore ε where
  State := State
  objects := State.objects
  step := Step lax
  atomic := Step.atomic

theorem store_truthful : (store ε False).Truthful := by
  intro s q r s' h
  cases h with
  | got l => rfl
  | getFailed l e hx => exact hx.elim
  | created l b v ha => exact .inl ⟨ha,v,rfl⟩
  | alreadyExists l b o hp => exact .inr ⟨o,hp,rfl⟩
  | createFailed l b e hx => exact hx.elim
  | createUncertain l b e v ha hf hx => exact hx.elim
  | replaced l o b v hc =>
      refine .inl ⟨?_,v,rfl⟩
      have : (store ε False).objects s l = some o := hc
      rw [this]
      rfl
  | conflict l x b hs => exact .inr ⟨hs,rfl⟩
  | replaceFailed l x b e hx => exact hx.elim
  | replaceUncertain l o b e v hc hf hx => exact hx.elim

def State.Issued (s : State) : Prop := ∀ l o, s.objects l = some o → o.version ∈ s.used

section Runs

variable {lax : Prop} {α : Type} {c c' : Config (store ε lax).State (Reply ε) α}
  {tr : Trace (Reply ε)}

theorem Step.used {s s' : State} {q : Request} {r : q.Response ε} (h : Step lax s q r s') :
    s'.used = (mutation ⟨.store q,r⟩).toList ++ s.used ∧
      ∀ v, mutation ⟨.store q,r⟩ = some v → v ∉ s.used := by
  cases h with
  | got | getFailed | alreadyExists | createFailed | conflict | replaceFailed =>
      simp [mutation,CreateReply.written,ReplaceReply.written]
  | created l b v ha hf | createUncertain l b e v ha hf hx | replaced l o b v hc hf
  | replaceUncertain l o b e v hc hf hx =>
      simp [mutation,CreateReply.written,ReplaceReply.written,State.put,hf]

theorem env_used {s s' : (store ε lax).State} {ev : Event (Reply ε)}
    (h : (store ε lax).Env s ev s') :
    s'.used = (mutation ev.answer).toList ++ s.used ∧
      ∀ v, mutation ev.answer = some v → v ∉ s.used := by
  cases h with
  | store hs => exact Step.used hs
  | nowMillis => simp [mutation,Event.answer]
  | nowV7 => simp [mutation,Event.answer]

theorem writes_used (h : Run (store ε lax).Env c tr c') :
    c'.world.used = (writes tr).reverse ++ c.world.used := by
  induction h with
  | nil => rfl
  | @snoc tr ev m c' _ hs ih =>
      obtain ⟨hu,-⟩ := env_used hs.world
      rw [writes_snoc,hu,ih]
      cases mutation ev.answer <;> simp

theorem writes_fresh (h : Run (store ε lax).Env c tr c') :
    (writes tr).Nodup ∧ ∀ v ∈ writes tr, v ∉ c.world.used := by
  induction h with
  | nil => simp [writes]
  | @snoc tr ev m c' hr hs ih =>
      obtain ⟨hn,hd⟩ := ih
      obtain ⟨-,hf⟩ := env_used hs.world
      rw [writes_snoc]
      cases hm : mutation ev.answer with
      | none => simpa using ⟨hn,hd⟩
      | some v =>
          have hv : v ∉ (writes tr).reverse ++ c.world.used := writes_used hr ▸ hf v hm
          simp only [List.mem_append,List.mem_reverse,not_or] at hv
          constructor
          · refine List.nodup_append.mpr ⟨hn,by simp,?_⟩
            intro x hx y hy he
            simp only [Option.toList_some,List.mem_singleton] at hy
            exact hv.1 (hy ▸ he ▸ hx)
          · intro x hx
            rcases List.mem_append.mp hx with hx | hx
            · exact hd x hx
            · simp only [Option.toList_some,List.mem_singleton] at hx
              exact hx ▸ hv.2

theorem held_nodup (h : Run (store ε lax).Env c tr c') (hs : c.world.Issued) (l : Location) :
    ((held (c.world.objects l) l tr).map Object.version).Nodup := by
  obtain ⟨hn,hd⟩ := writes_fresh h
  have hstored : ((stored l tr).map Object.version).Nodup := stored_versions_sublist.nodup hn
  rw [held,List.map_append]
  cases ho : c.world.objects l with
  | none => simpa using hstored
  | some o =>
      refine List.nodup_append.mpr ⟨by simp,hstored,?_⟩
      intro v hv v' hv' he
      simp only [Option.toList_some,List.map_cons,List.map_nil,List.mem_singleton] at hv
      refine hd v' (stored_versions_sublist.subset hv') ?_
      rw [← he,hv]
      exact hs l o ho

end Runs

end Ideal

end Objsds
