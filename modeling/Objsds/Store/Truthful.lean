import Objsds.Store.History

namespace Objsds

open Foundation

variable {ε : Type}

-- The reply says what the store holds, and a write is refused for no other reason.
def Truthful (objects : Objects) : (q : Request) → q.Response ε → Prop
  | .get l, r => r = .ok (objects l)
  | .create l _, r => (objects l = none ∧ ∃ v, r = CreateReply.created v) ∨
      ∃ o, objects l = some o ∧ r = CreateReply.alreadyExists o.version
  | .replace l x _, r =>
      ((objects l).map Object.version = some x ∧ ∃ v, r = ReplaceReply.replaced v) ∨
      ((objects l).map Object.version ≠ some x ∧
        r = ReplaceReply.conflict ((objects l).map Object.version))

def ObjectStore.Truthful (S : ObjectStore ε) : Prop :=
  ∀ {s : S.State} {q : Request} {r : q.Response ε} {s' : S.State},
    S.step s q r s' → Objsds.Truthful (S.objects s) q r

def Effect.target : Effect → Option Location
  | .store (.get l) => some l
  | .store (.create l _) => some l
  | .store (.replace l _ _) => some l
  | .nowMillis => none
  | .nowV7 => none

def Tells (l : Location) (v : Version) : Sigma (Reply ε) → Prop
  | ⟨.store (.get l'),r⟩ => l' = l ∧ ∃ o, r = .ok (some o) ∧ o.version = v
  | ⟨.store (.create l' _),r⟩ =>
      l' = l ∧ (r = CreateReply.created v ∨ r = CreateReply.alreadyExists v)
  | ⟨.store (.replace l' _ _),r⟩ =>
      l' = l ∧ (r = ReplaceReply.replaced v ∨ r = ReplaceReply.conflict (some v))
  | _ => False

section Steps

variable {S : ObjectStore ε} {s s' : S.State} {ev : Event (Reply ε)} {l : Location}

theorem ObjectStore.Env.truthful (hS : S.Truthful) {i : ℕ} {q : Request} {r : q.Response ε}
    (h : S.Env s ⟨i,.store q,r⟩ s') : Objsds.Truthful (S.objects s) q r := by
  cases h with
  | store hs => exact hS hs

theorem told_current (hS : S.Truthful) {v : Version} (h : S.Env s ev s')
    (ht : Tells l v ev.answer) :
    ∃ o, (S.objects s l = some o ∨ S.objects s' l = some o) ∧ o.version = v := by
  have hobj := h.objects_eq l
  obtain ⟨i,e,r⟩ := ev
  match e,r,ht with
  | .store (.get _),r,ht =>
      obtain ⟨rfl,o,rfl,hv⟩ := ht
      exact ⟨o,.inl (Except.ok.inj (h.truthful hS)).symm,hv⟩
  | .store (.create _ b),r,ht =>
      obtain ⟨rfl,rfl | rfl⟩ := ht
      · exact ⟨⟨b,v⟩,.inr (by simpa [stores,Request.stores,CreateReply.written] using hobj),rfl⟩
      · rcases h.truthful hS with ⟨-,w,hw⟩ | ⟨o,ho,hr⟩
        · simp at hw
        · exact ⟨o,.inl ho,(CreateReply.alreadyExists.inj hr).symm⟩
  | .store (.replace _ x b),r,ht =>
      obtain ⟨rfl,rfl | rfl⟩ := ht
      · exact ⟨⟨b,v⟩,.inr (by simpa [stores,Request.stores,ReplaceReply.written] using hobj),rfl⟩
      · rcases h.truthful hS with ⟨-,w,hw⟩ | ⟨-,hr⟩
        · simp at hw
        · obtain ⟨o,ho,hv⟩ := Option.map_eq_some_iff.mp (ReplaceReply.conflict.inj hr).symm
          exact ⟨o,.inl ho,hv⟩

end Steps

section Runs

variable {S : ObjectStore ε} {α : Type} {c c' : Config S.State (Reply ε) α}
  {tr : Trace (Reply ε)} {l l' : Location}

theorem stored_of_told (hS : S.Truthful) (h : Run S.Env c tr c') (hempty : S.objects c.world l = none)
    {v : Version} {ev : Event (Reply ε)} (hev : ev ∈ tr) (ht : Tells l v ev.answer) :
    ∃ e ∈ tr, ∃ o, stores l e = some o ∧ o.version = v := by
  obtain ⟨tr₁,tr₂,rfl⟩ := List.append_of_mem hev
  obtain ⟨m,m',hm,hs,hr⟩ := h.split
  obtain ⟨o,ho,hv⟩ := told_current hS hs.world ht
  have hmem : o ∈ stored l (tr₁ ++ [ev]) := by
    rcases ho with ho | ho
    · have := Run.current_mem_held hm ho
      rw [held,hempty] at this
      rw [stored_append]
      exact List.mem_append_left _ this
    · have := Run.current_mem_held (.snoc hm hs) ho
      rwa [held,hempty] at this
  obtain ⟨e,he,hst⟩ := List.mem_filterMap.mp hmem
  refine ⟨e,?_,o,hst,hv⟩
  simp only [List.mem_append,List.mem_cons] at he ⊢
  tauto

theorem replaced_stored (h : Run S.Env c tr c') (hempty : S.objects c.world l = none) {i : ℕ}
    {x v : Version} {b : Bytes} (hev : ⟨i,.store (.replace l x b),.replaced v⟩ ∈ tr) :
    ∃ e ∈ tr, ∃ o, stores l e = some o ∧ o.version = x := by
  obtain ⟨tr₁,tr₂,rfl⟩ := List.append_of_mem hev
  obtain ⟨m,m',hm,hs,hr⟩ := h.split
  obtain ⟨o,ho,hv⟩ := hs.world.atomic.replaced_inv rfl
  have hmem := Run.current_mem_held hm ho
  rw [held,hempty] at hmem
  obtain ⟨e,he,hst⟩ := List.mem_filterMap.mp hmem
  exact ⟨e,List.mem_append_left _ he,o,hst,hv⟩

theorem stores_target {ev : Event (Reply ε)} {o : Object} (h : stores l ev = some o) :
    ev.effect.target = some l := by
  obtain ⟨i,e,r⟩ := ev
  match e,r,h with
  | .store (.create l' b),r,h =>
      simp only [stores,Request.stores] at h
      split at h
      · subst l'
        rfl
      · simp at h
  | .store (.replace l' x b),r,h =>
      simp only [stores,Request.stores] at h
      split at h
      · subst l'
        rfl
      · simp at h

theorem told_replaced (hS : S.Truthful) (h : Run S.Env c tr c')
    (hempty : ∀ l, S.objects c.world l = none) (hn : (writes tr).Nodup) {x v : Version} {i : ℕ}
    {b : Bytes} {ev : Event (Reply ε)} (hev : ev ∈ tr) (ht : Tells l x ev.answer)
    (hr : ⟨i,.store (.replace l' x b),.replaced v⟩ ∈ tr) : l' = l := by
  obtain ⟨e,he,o,hst,hv⟩ := stored_of_told hS h (hempty l) hev ht
  obtain ⟨e',he',o',hst',hv'⟩ := replaced_stored h (hempty l') hr
  have hm : mutation e.answer = some x := by rw [mutation_of_stores hst,hv]
  have hm' : mutation e'.answer = some x := by rw [mutation_of_stores hst',hv']
  obtain rfl := filterMap_inj hn he he' hm hm'
  exact Option.some.inj ((stores_target hst').symm.trans (stores_target hst))

end Runs

end Objsds
