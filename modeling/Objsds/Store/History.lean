import Objsds.Store.Interface

namespace Objsds

open Foundation

variable {ε : Type}

def Request.stores (l : Location) : (q : Request) → q.Response ε → Option Object
  | .get _, _ => none
  | .create l' b, r => if l' = l then (CreateReply.written r).map (⟨b,·⟩) else none
  | .replace l' _ b, r => if l' = l then (ReplaceReply.written r).map (⟨b,·⟩) else none

def stores (l : Location) (ev : Event (Reply ε)) : Option Object :=
  match ev with
  | ⟨_,.store q,r⟩ => q.stores l r
  | _ => none

def stored (l : Location) (tr : Trace (Reply ε)) : List Object := tr.filterMap (stores l)

def identifier (x : Sigma (Reply ε)) : Option Uuid :=
  match x with
  | ⟨.nowV7,id⟩ => some id
  | _ => none

def reading (x : Sigma (Reply ε)) : Option UInt64 :=
  match x with
  | ⟨.nowMillis,now⟩ => some now
  | _ => none

def identifiers (h : List (Sigma (Reply ε))) : List Uuid := h.filterMap identifier

def readings (h : List (Sigma (Reply ε))) : List UInt64 := h.filterMap reading

def issued (tr : Trace (Reply ε)) : List Uuid := identifiers (tr.map Event.answer)

def Coherent (objects : List Object) : Prop :=
  ∀ o ∈ objects, ∀ o' ∈ objects, o.version = o'.version → o.bytes = o'.bytes

def held (start : Option Object) (l : Location) (tr : Trace (Reply ε)) : List Object :=
  start.toList ++ stored l tr

def mutation (x : Sigma (Reply ε)) : Option Version :=
  match x with
  | ⟨.store (.create _ _),r⟩ => CreateReply.written r
  | ⟨.store (.replace _ _ _),r⟩ => ReplaceReply.written r
  | _ => none

def storeFailed (x : Sigma (Reply ε)) : Prop :=
  match x with
  | ⟨.store (.get _),r⟩ => ∃ e, r = .error e
  | ⟨.store (.create _ _),r⟩ => ∃ e, CreateReply.result r = .error (.store e)
  | ⟨.store (.replace _ _ _),r⟩ => ∃ e, ReplaceReply.result r = .error (.store e)
  | _ => False

def shows (l : Location) (x : Sigma (Reply ε)) : Prop :=
  match x with
  | ⟨.store (.get l'),r⟩ => l' = l ∧ ∃ o, r = .ok (some o)
  | ⟨.store (.create l' _),.alreadyExists _⟩ => l' = l
  | _ => False

def founds (l : Location) (x : Sigma (Reply ε)) : Bool :=
  match x with
  | ⟨.store (.create l' _),r⟩ => l' = l && (CreateReply.written r).isSome
  | _ => false

def writes (tr : Trace (Reply ε)) : List Version := tr.filterMap (fun ev => mutation ev.answer)

def Definite (tr : Trace (Reply ε)) : Prop :=
  ∀ ev ∈ tr, ∀ v, mutation ev.answer = some v → ¬ storeFailed ev.answer

theorem not_storeFailed_empty (x : Sigma (Reply Empty)) : ¬ storeFailed x := by
  intro h
  unfold storeFailed at h
  split at h
  · exact h.choose.elim
  · exact h.choose.elim
  · exact h.choose.elim
  · exact h

theorem definite_empty (tr : Trace (Reply Empty)) : Definite tr :=
  fun ev _ _ _ => not_storeFailed_empty ev.answer

section Stored

variable {l : Location} {tr tr' : Trace (Reply ε)} {ev : Event (Reply ε)}

@[simp] theorem stored_nil : stored l ([] : Trace (Reply ε)) = [] := rfl

theorem stored_append : stored l (tr ++ tr') = stored l tr ++ stored l tr' := by
  simp [stored]

theorem stored_snoc : stored l (tr ++ [ev]) = stored l tr ++ (stores l ev).toList := by
  cases h : stores l ev <;> simp [stored,h]

theorem held_append {start : Option Object} :
    held start l (tr ++ tr') = held start l tr ++ stored l tr' := by
  simp [held,stored_append]

theorem held_snoc {start : Option Object} :
    held start l (tr ++ [ev]) = held start l tr ++ (stores l ev).toList := by
  simp [held,stored_snoc]

theorem Coherent.mono {xs ys : List Object} (h : Coherent ys) (hs : ∀ o ∈ xs, o ∈ ys) :
    Coherent xs :=
  fun o ho o' ho' => h o (hs o ho) o' (hs o' ho')

theorem Coherent.of_append {start : Option Object} (h : Coherent (held start l (tr ++ tr'))) :
    Coherent (held start l tr) :=
  h.mono (fun o ho => by rw [held_append]; exact List.mem_append_left _ ho)

theorem issued_append : issued (tr ++ tr') = issued tr ++ issued tr' := by
  simp [issued,identifiers]

theorem identifiers_append (h h' : List (Sigma (Reply ε))) :
    identifiers (h ++ h') = identifiers h ++ identifiers h' := by
  simp [identifiers]

theorem readings_append (h h' : List (Sigma (Reply ε))) :
    readings (h ++ h') = readings h ++ readings h' := by
  simp [readings]

@[simp] theorem identifiers_store (q : Request) (r : q.Response ε) :
    identifiers [⟨.store q,r⟩] = ([] : List Uuid) := rfl

@[simp] theorem identifiers_nowMillis (now : UInt64) :
    identifiers [(⟨.nowMillis,now⟩ : Sigma (Reply ε))] = [] := rfl

@[simp] theorem identifiers_nowV7 (id : Uuid) :
    identifiers [(⟨.nowV7,id⟩ : Sigma (Reply ε))] = [id] := rfl

@[simp] theorem readings_store (q : Request) (r : q.Response ε) :
    readings [⟨.store q,r⟩] = ([] : List UInt64) := rfl

@[simp] theorem readings_nowMillis (now : UInt64) :
    readings [(⟨.nowMillis,now⟩ : Sigma (Reply ε))] = [now] := rfl

@[simp] theorem readings_nowV7 (id : Uuid) :
    readings [(⟨.nowV7,id⟩ : Sigma (Reply ε))] = [] := rfl

theorem stores_of_mutation (h : mutation ev.answer = none) (l : Location) :
    stores l ev = none := by
  obtain ⟨i,e,r⟩ := ev
  match e,r,h with
  | .nowMillis,_,_ => rfl
  | .nowV7,_,_ => rfl
  | .store (.get _),_,_ => rfl
  | .store (.create l' b),r,h =>
      have hr : CreateReply.written r = none := h
      simp [stores,Request.stores,hr]
  | .store (.replace l' x b),r,h =>
      have hr : ReplaceReply.written r = none := h
      simp [stores,Request.stores,hr]

theorem stores_replace {x : Version} {b : Bytes} {r : ReplaceReply ε}
    (h : ev.answer = ⟨.store (.replace l x b),r⟩) : stores l ev = r.written.map (⟨b,·⟩) := by
  obtain ⟨i,e,r'⟩ := ev
  simp only [Event.answer,Sigma.mk.injEq] at h
  obtain ⟨rfl,hr⟩ := h
  obtain rfl := eq_of_heq hr
  simp [stores,Request.stores]

theorem of_not_storeFailed (hok : ∀ ev ∈ tr, ¬ storeFailed ev.answer) {i : ℕ}
    {x : Sigma (Reply ε)} (hx : x ∈ Trace.of i tr) : ¬ storeFailed x := by
  obtain ⟨ev,hev,-,rfl⟩ := Trace.mem_of.mp hx
  exact hok ev hev

theorem mem_identifiers_of {i : ℕ} {id : Uuid} :
    id ∈ identifiers (Trace.of i tr) ↔
      ∃ ev ∈ tr, ev.call = i ∧ identifier ev.answer = some id := by
  simp only [identifiers,List.mem_filterMap]
  constructor
  · rintro ⟨x,hx,hid⟩
    obtain ⟨ev,hev,hc,rfl⟩ := Trace.mem_of.mp hx
    exact ⟨ev,hev,hc,hid⟩
  · rintro ⟨ev,hev,hc,hid⟩
    exact ⟨_,Trace.mem_of.mpr ⟨ev,hev,hc,rfl⟩,hid⟩

theorem filterMap_inj {α β : Type} {f : α → Option β} {xs : List α} (h : (xs.filterMap f).Nodup)
    {a b : α} {x : β} (ha : a ∈ xs) (hb : b ∈ xs) (hfa : f a = some x) (hfb : f b = some x) :
    a = b := by
  induction xs with
  | nil => simp at ha
  | cons y ys ih =>
      rw [List.filterMap_cons] at h
      have hmem : ∀ z ∈ ys, f z = some x → x ∈ ys.filterMap f := fun z hz hzx =>
        List.mem_filterMap.mpr ⟨z,hz,hzx⟩
      rcases List.mem_cons.mp ha with rfl | hm <;> rcases List.mem_cons.mp hb with rfl | hm'
      · rfl
      · rw [hfa] at h
        exact absurd (hmem b hm' hfb) (List.nodup_cons.mp h).1
      · rw [hfb] at h
        exact absurd (hmem a hm hfa) (List.nodup_cons.mp h).1
      · refine ih ?_ hm hm'
        cases hy : f y with
        | none => rwa [hy] at h
        | some z =>
            rw [hy] at h
            exact (List.nodup_cons.mp h).2

theorem issued_inj (h : (issued tr).Nodup) {e e' : Event (Reply ε)} {id : Uuid} (he : e ∈ tr)
    (he' : e' ∈ tr) (hid : identifier e.answer = some id) (hid' : identifier e'.answer = some id) :
    e = e' := by
  rw [issued,identifiers,List.filterMap_map] at h
  exact filterMap_inj h he he' hid hid'

theorem writes_append : writes (tr ++ tr') = writes tr ++ writes tr' := by
  simp [writes]

theorem writes_singleton : writes [ev] = (mutation ev.answer).toList := by
  cases h : mutation ev.answer <;> simp [writes,h]

theorem writes_snoc : writes (tr ++ [ev]) = writes tr ++ (mutation ev.answer).toList := by
  rw [writes_append,writes_singleton]

theorem mutation_of_stores {o : Object} (h : stores l ev = some o) :
    mutation ev.answer = some o.version := by
  obtain ⟨i,e,r⟩ := ev
  match e,r,h with
  | .store (.create l' b),r,h =>
      simp only [stores,Request.stores] at h
      split at h
      · obtain ⟨v,hv,rfl⟩ := Option.map_eq_some_iff.mp h
        exact hv
      · simp at h
  | .store (.replace l' x b),r,h =>
      simp only [stores,Request.stores] at h
      split at h
      · obtain ⟨v,hv,rfl⟩ := Option.map_eq_some_iff.mp h
        exact hv
      · simp at h

theorem stored_versions_sublist : ((stored l tr).map Object.version).Sublist (writes tr) := by
  induction tr with
  | nil => exact .slnil
  | cons ev tr ih =>
      rw [stored,writes,List.filterMap_cons,List.filterMap_cons]
      cases hs : stores l ev with
      | some o =>
          rw [mutation_of_stores hs]
          exact ih.cons_cons _
      | none =>
          cases mutation ev.answer with
          | none => exact ih
          | some v => exact ih.cons v

theorem issued_caller (h : (issued tr).Nodup) {i j : ℕ} {id : Uuid}
    (hi : id ∈ identifiers (Trace.of i tr)) (hj : id ∈ identifiers (Trace.of j tr)) : i = j := by
  obtain ⟨e,he,rfl,hid⟩ := mem_identifiers_of.mp hi
  obtain ⟨e',he',rfl,hid'⟩ := mem_identifiers_of.mp hj
  rw [issued_inj h he he' hid hid']

theorem issued_nodup_of_append (h : (issued (tr ++ tr')).Nodup) : (issued tr).Nodup := by
  rw [issued_append] at h
  exact (List.nodup_append.mp h).1

end Stored

section Steps

variable {S : ObjectStore ε} {s s' : S.State} {ev : Event (Reply ε)} {l : Location}

theorem Objects.put_self (objects : Objects) (l : Location) (o : Object) :
    objects.put l o l = some o := by
  simp [Objects.put]

theorem Objects.put_other {objects : Objects} {l l' : Location} (o : Object) (h : l' ≠ l) :
    objects.put l o l' = objects l' := by
  simp [Objects.put,h]

theorem Atomic.objects_eq {objects objects' : Objects} {q : Request} {r : q.Response ε}
    (h : Atomic objects q r objects') (l : Location) :
    objects' l = (q.stores l r).or (objects l) := by
  cases h with
  | got | getFailed | alreadyExists | createFailed | conflict | replaceFailed =>
      simp [Request.stores,CreateReply.written,ReplaceReply.written]
  | created l' b v | createUncertain l' b _ v | replaced l' _ b v | replaceUncertain l' _ b _ v =>
      by_cases hl : l' = l
      · subst hl
        simp [Request.stores,CreateReply.written,ReplaceReply.written,Objects.put_self]
      · simp [Request.stores,hl,Objects.put_other _ (Ne.symm hl)]

theorem ObjectStore.Env.objects_eq (h : S.Env s ev s') (l : Location) :
    S.objects s' l = (stores l ev).or (S.objects s l) := by
  cases h with
  | store hs => exact (S.atomic hs).objects_eq l
  | nowMillis => simp [stores]
  | nowV7 => simp [stores]

theorem Atomic.got_inv {objects objects' : Objects} {r : Except ε (Option Object)}
    (h : Atomic objects (.get l) r objects') : r = .ok (objects l) ∨ ∃ e, r = .error e := by
  cases h with
  | got => exact .inl rfl
  | getFailed => exact .inr ⟨_,rfl⟩

theorem Atomic.replaced_inv {objects objects' : Objects} {x v : Version} {b : Bytes}
    {r : ReplaceReply ε} (h : Atomic objects (.replace l x b) r objects')
    (hw : r.written = some v) : ∃ o, objects l = some o ∧ o.version = x := by
  cases h with
  | replaced l o b v hc => exact ⟨o,hc,rfl⟩
  | replaceUncertain l o b e v hc => exact ⟨o,hc,rfl⟩
  | conflict => simp [ReplaceReply.written] at hw
  | replaceFailed => simp [ReplaceReply.written] at hw

theorem Atomic.created_inv {objects objects' : Objects} {v : Version} {b : Bytes}
    {r : CreateReply ε} (h : Atomic objects (.create l b) r objects')
    (hw : r.written = some v) : objects l = none := by
  cases h with
  | created l b v ha => exact ha
  | createUncertain l b e v ha => exact ha
  | alreadyExists => simp [CreateReply.written] at hw
  | createFailed => simp [CreateReply.written] at hw

theorem Atomic.exists_inv {objects objects' : Objects} {v : Version} {b : Bytes}
    (h : Atomic (ε := ε) objects (.create l b) (.alreadyExists v) objects') : objects l ≠ none := by
  cases h with
  | alreadyExists _ _ _ hp => exact hp

theorem ObjectStore.Env.atomic {i : ℕ} {q : Request} {r : q.Response ε}
    (h : S.Env s ⟨i,.store q,r⟩ s') : Atomic (S.objects s) q r (S.objects s') := by
  cases h with
  | store hs => exact S.atomic hs

end Steps

section Runs

variable {S : ObjectStore ε} {α : Type} {c c' : Config S.State (Reply ε) α}
  {tr : Trace (Reply ε)}

theorem Run.objects_eq (h : Run S.Env c tr c') (l : Location) :
    S.objects c'.world l = (held (S.objects c.world l) l tr).getLast? := by
  induction h with
  | nil => cases S.objects c.world l <;> simp [held]
  | @snoc tr ev m c' _ hs ih =>
      rw [hs.world.objects_eq l,ih]
      cases hev : stores l ev <;> simp [held,stored_snoc,hev]

theorem Run.got (h : Run S.Env c tr c') {i : ℕ} {l : Location} {r : Except ε (Option Object)}
    (hg : ⟨.store (.get l),r⟩ ∈ Trace.of i tr) :
    ∃ tr₁ tr₂ m, tr = tr₁ ++ ⟨i,.store (.get l),r⟩ :: tr₂ ∧ Run S.Env c tr₁ m ∧
      (r = .ok (S.objects m.world l) ∨ ∃ e, r = .error e) := by
  obtain ⟨⟨j,e,r'⟩,hev,rfl,ha⟩ := Trace.mem_of.mp hg
  simp only [Event.answer,Sigma.mk.injEq] at ha
  obtain ⟨rfl,hr⟩ := ha
  obtain rfl := eq_of_heq hr
  obtain ⟨tr₁,tr₂,rfl⟩ := List.append_of_mem hev
  obtain ⟨m,m',hm,hs,-⟩ := h.split
  exact ⟨tr₁,tr₂,m,rfl,hm,hs.world.atomic.got_inv⟩

theorem Run.current_mem_held (h : Run S.Env c tr c') {l : Location} {o : Object}
    (ho : S.objects c'.world l = some o) : o ∈ held (S.objects c.world l) l tr := by
  rw [Run.objects_eq h l] at ho
  exact List.mem_of_getLast? ho

theorem Run.present (h : Run S.Env c tr c') {l : Location} (hp : S.objects c.world l ≠ none) :
    S.objects c'.world l ≠ none := by
  refine h.world_invariant (I := fun w => S.objects w l ≠ none) ?_ hp
  intro w ev w' henv hw
  rw [henv.objects_eq l]
  cases stores l ev <;> simp [hw]

theorem Step.shown {ev : Event (Reply ε)} (hs : Step S.Env c ev c') {l : Location}
    (hx : shows l ev.answer) : S.objects c.world l ≠ none := by
  have henv := hs.world
  obtain ⟨i,e,r⟩ := ev
  match e,r,hx with
  | .store (.get _),r,hx =>
      obtain ⟨rfl,o,rfl⟩ := hx
      rcases henv.atomic.got_inv with ho | ⟨e,he⟩
      · simp [← Except.ok.inj ho]
      · simp at he
  | .store (.create _ b),.alreadyExists v,hx =>
      obtain rfl := hx
      exact henv.atomic.exists_inv

theorem Run.shown (h : Run S.Env c tr c') {l : Location} {ev : Event (Reply ε)} (hev : ev ∈ tr)
    (hx : shows l ev.answer) : S.objects c'.world l ≠ none := by
  obtain ⟨tr₁,tr₂,rfl⟩ := List.append_of_mem hev
  obtain ⟨m,m',-,hs,hr⟩ := h.split
  exact Run.present (.cons hs hr) (Step.shown hs hx)

end Runs

end Objsds
