import Objsds.Filesystem.Layout
import Objsds.Filesystem.Unhindered
import Objsds.Memory.Mirror
import Objsds.System.Effort

namespace Objsds

open Foundation FilesystemStore

namespace Filesystem

section Costs

variable {α ε ε' : Type} {k : ℕ}

theorem takes_io {p : Fs (Except IoError α)} (h : p.Takes k) : (io p).run.Takes k :=
  h.map

theorem takes_request (e : Sys) : (Program.request e : Fs _).Takes 1 :=
  Program.Takes.request (fun _ => trivial)

theorem takes_reject (current : Path) (rest : List String) :
    (rejectExistingSymlinks current rest).Takes rest.length := by
  induction rest generalizing current with
  | nil => trivial
  | cons c rest ih =>
      refine Program.Takes.request (fun r => ?_)
      rcases r with (e | t)
      · cases e <;> trivial
      · cases t <;> first | trivial | exact ih _

theorem takes_orExisting (path : Path) (e : IoError) : (orExisting path e).Takes 1 := by
  refine Program.Takes.request (fun r => ?_)
  cases r <;> trivial

theorem takes_createDirAllUp (up : List String) : (createDirAllUp up).Takes (3 * up.length + 2) := by
  induction up with
  | nil =>
      refine Program.Takes.request (fun r => ?_)
      rcases r with (e | u)
      · cases e <;> first | trivial | exact takes_orExisting ..
      · trivial
  | cons c up ih =>
      rw [List.length_cons,show 3 * (up.length + 1) + 2 = (3 * up.length + 2 + 2) + 1 by omega]
      refine Program.Takes.request (fun r => ?_)
      rcases r with (e | u)
      · cases e with
        | notFound =>
            change (createDirAllUp up >>= _).Takes _
            refine ih.bind (m := 2) (fun r => ?_)
            rcases r with (e | u)
            · trivial
            · refine Program.Takes.request (fun r => ?_)
              rcases r with (e | u)
              · exact takes_orExisting ..
              · trivial
        | _ => exact (takes_orExisting ..).mono (by omega)
      · trivial

theorem takes_createDirAll (p : Path) : (createDirAll p).Takes (3 * p.length + 2) := by
  have h := takes_createDirAllUp p.reverse
  rwa [List.length_reverse] at h

theorem takes_objectPath (root : Path) (l : Location) :
    (objectPath root l).run.Takes (names l.asStr).length := by
  by_cases h : accepted l.asStr = true
  · rw [objectPath,if_pos h]
    exact (takes_reject _ _).bindExcept (m := 0) (fun _ => trivial)
  · rw [objectPath,if_neg h]
    trivial

variable {K : Setting} {l : Location}

theorem refused_bind (root : Path) (h : accepted l.asStr = false)
    (f : Target → FsResult StoreError α) : (objectPath root l >>= f).run = .done (.error .invalidLocation) := by
  rw [objectPath,if_neg (by simp [h])]
  rfl

theorem takes_acquire (l : Location) (mode : LockMode) :
    (ObjectLock.acquire (K.lock l) mode).run.Takes (3 * K.root.length + 7) := by
  rw [ObjectLock.acquire,parentOf_lock]
  have hmake := takes_io (takes_createDirAll (K.root ++ [lockDir]))
  rw [List.length_append,List.length_singleton] at hmake
  refine (hmake.bindExcept (m := 2) (fun _ => ?_)).mono (by omega)
  refine (takes_io (takes_request _)).bindExcept (m := 1) (fun _ => ?_)
  exact (takes_io (takes_request _)).bindExcept (m := 0) (fun _ => trivial)

theorem takes_preparePath (l : Location) :
    (preparePath ⟨K.root⟩ l).run.Takes (3 * K.root.length + 5 * (names l.asStr).length + 2) := by
  rw [preparePath]
  cases hacc : accepted l.asStr with
  | false =>
      rw [refused_bind _ hacc]
      trivial
  | true =>
      rw [objectPath_bind hacc]
      have hmake := takes_io (takes_createDirAll (K.dir l))
      have hlen : (K.dir l).length ≤ K.root.length + (names l.asStr).length := by
        rw [Setting.dir,List.length_append,List.length_dropLast]
        omega
      refine ((takes_reject _ _).bindExcept
        (m := 3 * (K.dir l).length + 2 + (names l.asStr).length) (fun _ => ?_)).mono ?_
      · rw [parentOf_object hacc]
        refine hmake.bindExcept (fun _ => ?_)
        exact (takes_reject _ _).bindExcept (m := 0) (fun _ => trivial)
      · omega

theorem takes_holding {ino : ℕ} {body : Fs α} (h : body.Takes k) :
    (ObjectLock.holding ino body).Takes (k + 1) :=
  h.bind (fun _ => Program.Takes.request (fun _ => trivial))

theorem takes_readPath (t : Target) : (readPath t).Takes 1 := by
  rw [readPath_eq]
  exact (takes_request _).map

theorem takes_publish (t : Target) (encoded : Bytes) : (publish t encoded).run.Takes 8 := by
  rw [publish]
  have hparent : (parentOf t.path).run.Takes 0 := by
    rw [parentOf]
    cases parent t.path <;> trivial
  refine (hparent.bindExcept (m := 8) (fun dir => ?_)).mono (by omega)
  refine Program.Takes.request (fun id => ?_)
  have hwrite : (writeTemporary dir (dir ++ [temporaryName id]) t encoded).run.Takes 6 := by
    refine (takes_io (takes_request _)).bindExcept (m := 5) (fun _ => ?_)
    refine (takes_io (takes_request _)).bindExcept (m := 4) (fun _ => ?_)
    refine (takes_io (takes_request _)).bindExcept (m := 3) (fun _ => ?_)
    refine (takes_io (takes_request _)).bindExcept (m := 2) (fun _ => ?_)
    refine (takes_io (takes_request _)).bindExcept (m := 1) (fun _ => ?_)
    exact takes_io (takes_request _)
  refine hwrite.bind (m := 1) (fun r => ?_)
  cases r with
  | ok u => trivial
  | error e => exact Program.Takes.request (fun _ => trivial)

theorem takes_write (t : Target) (b : Bytes) : (write t b).run.Takes 9 := by
  refine Program.Takes.request (fun rev => ?_)
  exact (takes_publish t _).bindExcept (m := 0) (fun _ => trivial)

theorem takes_locking {wrap : StoreError → ε} {body : Target → Fs (Except ε α)}
    (h : ∀ t, (body t).Takes 10) (l : Location) :
    (ExceptT.run do
      let path ← ExceptT.adapt wrap (preparePath ⟨K.root⟩ l)
      let lock ← ExceptT.adapt wrap (ObjectLock.acquire (lockPath K.root l) .exclusive)
      ExceptT.mk (ObjectLock.holding lock (body path))).Takes
      (6 * K.root.length + 5 * (names l.asStr).length + 20) := by
  have hprepare := (takes_preparePath (K := K) l).adapt wrap
  have hacquire := (takes_acquire (K := K) l .exclusive).adapt wrap
  refine (hprepare.bindExcept (fun t => hacquire.bindExcept
    (fun _ => takes_holding (h t)))).mono (by omega)

def requests (root : Path) (l : Location) : ℕ := 6 * root.length + 5 * (names l.asStr).length + 20

theorem takes_serve (root : Path) (q : Request) :
    (serve ⟨root⟩ q).Takes (requests root q.location) := by
  cases q with
  | get l =>
      rw [serve,FilesystemStore.get]
      have hacquire := takes_acquire (K := layout root) l .shared
      refine ((takes_objectPath root l).bindExcept (fun t => hacquire.bindExcept
        (fun _ => takes_holding (takes_readPath t)))).mono ?_
      simp only [requests,Request.location,layout]
      omega
  | create l b =>
      refine Program.Within.map (takes_locking (K := layout root) (fun t => ?_) l)
      refine ((takes_readPath t).adapt CreateError.store).bindExcept (m := 9) (fun current => ?_)
      cases current with
      | some o => trivial
      | none => exact (takes_write t b).adapt CreateError.store
  | replace l x b =>
      refine Program.Within.map (takes_locking (K := layout root) (fun t => ?_) l)
      refine ((takes_readPath t).adapt ReplaceError.store).bindExcept (m := 9) (fun current => ?_)
      split
      · trivial
      · exact (takes_write t b).adapt ReplaceError.store

end Costs

section Progress

variable {α : Type} {n i : ℕ} {σ : ℕ → Allowance} {c c' : Config Disk SysReply α}
  {ev : Event SysReply} {tr : Trace SysReply} {d d' : Disk} {e : Sys} {r : SysReply e}

theorem env_granted (h : Env False d ⟨i,e,r⟩ d') : Granted e r := by
  cases h with
  | exec he =>
      cases e with
      | lock ino mode =>
          simp only [Disk.exec] at he
          split at he
          · exact (Prod.mk.inj (Option.some.inj he)).1.symm
          · simp at he
      | _ => trivial
  | nowMillis | nowV7 => trivial
  | fault hf => exact hf.elim
  | shortWrite => trivial

theorem env_quiet (h : Env False d ⟨i,e,r⟩ d') (hl : ∀ ino mode, e ≠ .lock ino mode)
    (hu : ∀ ino, e ≠ .unlock ino) (hv : e ≠ .nowV7) :
    d'.locks = d.locks ∧ d'.drawn = d.drawn := by
  cases h with
  | exec he =>
      have hw : ∀ ino bytes, e = .writeAll ino bytes → bytes.length < 2 ^ 63 := by
        rintro ino bytes rfl
        simp only [Disk.exec] at he
        split at he
        · assumption
        · simp at he
      obtain ⟨r',d₁,henv,hsame⟩ := exec_answers d i e hl hu hw hv
      cases henv with
      | exec he' =>
          obtain ⟨-,rfl⟩ := Prod.mk.inj (Option.some.inj (he.symm.trans he'))
          exact hsame
      | nowMillis => simp [Disk.exec] at he
      | nowV7 => exact absurd rfl hv
      | fault hf => exact hf.elim
      | shortWrite hf => exact hf.elim
  | nowMillis => exact ⟨rfl,rfl⟩
  | nowV7 => exact absurd rfl hv
  | fault hf => exact hf.elim
  | shortWrite hf => exact hf.elim

def Fits : Sys → Prop
  | .writeAll _ bytes => bytes.length < 2 ^ 63
  | _ => True

def Overlong (p : Fs α) : Prop :=
  ∃ ino bytes next, p = .perform (.writeAll ino bytes) next ∧ 2 ^ 63 ≤ bytes.length

-- Whoever holds a lock waits for none and gives it back.
structure Courteous (σ : ℕ → Allowance) (c : Config Disk SysReply α) : Prop where
  calls : ∀ i, Orderly Fits (fun _ τ => τ.held = none) (c.calls i) (σ i)
  held : ∀ ino x, x ∈ c.world.locks ino → (σ x.1).held = some ino

-- There are identifiers for all that the first `n` calls are yet to draw.
structure Live (n : ℕ) (σ : ℕ → Allowance) (c : Config Disk SysReply α) : Prop
    extends Courteous σ c where
  idle : ∀ i, n ≤ i → (σ i).held = none
  spare : ∃ free : Finset Uuid, (∀ id ∈ free, c.world.drawn id = none) ∧
    ∑ i ∈ Finset.range n, (σ i).draws ≤ free.card

theorem spend_held {τ τ' : Allowance} (h : τ.spend e = some τ') (hl : ∀ ino mode, e ≠ .lock ino mode)
    (hu : ∀ ino, e ≠ .unlock ino) : τ'.held = τ.held := by
  cases e with
  | lock ino mode => exact absurd rfl (hl ino mode)
  | unlock ino => exact absurd rfl (hu ino)
  | writeAll ino bytes | nowV7 =>
      simp only [Allowance.spend] at h
      split at h <;> cases h
      rfl
  | _ => cases h; rfl

theorem spend_draws {τ τ' : Allowance} (h : τ.spend e = some τ') (hv : e ≠ .nowV7) :
    τ'.draws = τ.draws := by
  cases e with
  | nowV7 => exact absurd rfl hv
  | lock ino mode | unlock ino | writeAll ino bytes =>
      simp only [Allowance.spend] at h
      split at h <;> cases h
      rfl
  | _ => cases h; rfl

theorem spend_lock {τ τ' : Allowance} {ino : ℕ} {mode : LockMode}
    (h : τ.spend (.lock ino mode) = some τ') : τ.held = none ∧ τ'.held = some ino := by
  simp only [Allowance.spend] at h
  split at h
  · rename_i hnone
    obtain rfl := Option.some.inj h
    exact ⟨hnone,rfl⟩
  · simp at h

theorem spend_unlock {τ τ' : Allowance} {ino : ℕ} (h : τ.spend (.unlock ino) = some τ') :
    τ.held = some ino := by
  simp only [Allowance.spend] at h
  split at h
  · assumption
  · simp at h

theorem spend_nowV7 {τ τ' : Allowance} (h : τ.spend .nowV7 = some τ') : τ.draws = τ'.draws + 1 := by
  simp only [Allowance.spend] at h
  split at h
  · simp at h
  · obtain rfl := Option.some.inj h
    change τ.draws = τ.draws - 1 + 1
    omega

theorem exec_lock {ino : ℕ} {mode : LockMode} {r : Except IoError Unit}
    (h : Env False d ⟨i,.lock ino mode,r⟩ d') : d' = d.lock i ino mode := by
  cases h with
  | exec he =>
      simp only [Disk.exec] at he
      split at he
      · exact (Prod.mk.inj (Option.some.inj he)).2.symm
      · simp at he
  | fault hf => exact hf.elim

theorem held_step {τ : Allowance} (henv : Env False d ⟨i,e,r⟩ d') (hspend : (σ i).spend e = some τ)
    (hheld : ∀ ino x, x ∈ d.locks ino → (σ x.1).held = some ino) :
    ∀ ino x, x ∈ d'.locks ino → (Function.update σ i τ x.1).held = some ino := by
  have hquiet : (∀ ino mode, e ≠ .lock ino mode) → (∀ ino, e ≠ .unlock ino) →
      d'.locks = d.locks → ∀ ino x, x ∈ d'.locks ino →
        (Function.update σ i τ x.1).held = some ino := by
    intro hl hu hlocks ino x hx
    rw [hlocks] at hx
    have hk := hheld ino x hx
    by_cases hxi : x.1 = i
    · rw [hxi,Function.update_self,spend_held hspend hl hu,← hxi,hk]
    · rw [Function.update_of_ne hxi,hk]
  cases e with
  | lock k mode =>
      obtain ⟨hnone,hsome⟩ := spend_lock hspend
      obtain rfl := exec_lock henv
      intro ino x hx
      rcases Disk.mem_lock.mp hx with ⟨rfl,hxi,-⟩ | hx
      · rw [hxi,Function.update_self]
        exact hsome
      · have hk := hheld ino x hx
        have hxi : x.1 ≠ i := by
          intro he
          rw [he,hnone] at hk
          simp at hk
        rwa [Function.update_of_ne hxi]
  | unlock k =>
      have hown := spend_unlock hspend
      cases henv with
      | exec he =>
          obtain rfl := (Prod.mk.inj (Option.some.inj he)).2
          intro ino x hx
          obtain ⟨hx,hne⟩ := Disk.mem_unlock.mp hx
          have hk := hheld ino x hx
          have hxi : x.1 ≠ i := by
            intro he
            rw [he,hown] at hk
            exact hne (Option.some.inj hk).symm he
          rwa [Function.update_of_ne hxi]
      | fault hf => exact hf.elim
  | nowV7 =>
      refine hquiet (by simp) (by simp) ?_
      cases henv with
      | exec he => simp [Disk.exec] at he
      | nowV7 _ _ _ => rfl
      | fault hf => exact hf.elim
  | _ => exact hquiet (by simp) (by simp) (env_quiet henv (by simp) (by simp) (by simp)).1

theorem spare_step {τ : Allowance} (hi : i < n) (henv : Env False d ⟨i,e,r⟩ d')
    (hspend : (σ i).spend e = some τ)
    (hspare : ∃ free : Finset Uuid, (∀ id ∈ free, d.drawn id = none) ∧
      ∑ j ∈ Finset.range n, (σ j).draws ≤ free.card) :
    ∃ free : Finset Uuid, (∀ id ∈ free, d'.drawn id = none) ∧
      ∑ j ∈ Finset.range n, (Function.update σ i τ j).draws ≤ free.card := by
  obtain ⟨free,hfree,hcard⟩ := hspare
  have hmem : i ∈ Finset.range n := Finset.mem_range.mpr hi
  have hsum : ∑ j ∈ Finset.range n, (Function.update σ i τ j).draws + (σ i).draws =
      ∑ j ∈ Finset.range n, (σ j).draws + τ.draws := by
    rw [← Finset.add_sum_erase _ _ hmem,← Finset.add_sum_erase _ (fun j => (σ j).draws) hmem,
      Function.update_self]
    have hrest : ∑ j ∈ (Finset.range n).erase i, (Function.update σ i τ j).draws =
        ∑ j ∈ (Finset.range n).erase i, (σ j).draws := by
      refine Finset.sum_congr rfl (fun j hj => ?_)
      rw [Function.update_of_ne (Finset.ne_of_mem_erase hj)]
    omega
  by_cases hv : e = .nowV7
  · subst hv
    have hdraws := spend_nowV7 hspend
    cases henv with
    | exec he => simp [Disk.exec] at he
    | fault hf => exact hf.elim
    | nowV7 _ id hid =>
        refine ⟨free.erase r,fun x hx => ?_,?_⟩
        · have hne := Finset.ne_of_mem_erase hx
          simpa [Disk.draw,hne] using hfree x (Finset.mem_of_mem_erase hx)
        · have := Finset.pred_card_le_card_erase (s := free) (a := r)
          omega
  · have hdrawn : d'.drawn = d.drawn := by
      by_cases hl : ∃ ino mode, e = .lock ino mode
      · obtain ⟨ino,mode,rfl⟩ := hl
        rw [exec_lock henv]
        rfl
      · by_cases hu : ∃ ino, e = .unlock ino
        · obtain ⟨ino,rfl⟩ := hu
          cases henv with
          | exec he =>
              obtain rfl := (Prod.mk.inj (Option.some.inj he)).2
              rfl
          | fault hf => exact hf.elim
        · push Not at hl hu
          exact (env_quiet henv hl hu hv).2
    refine ⟨free,by rwa [hdrawn],?_⟩
    have := spend_draws hspend hv
    omega

theorem env_fits (h : Env False d ⟨i,e,r⟩ d') : Fits e := by
  cases h with
  | exec he =>
      cases e with
      | writeAll ino bytes =>
          simp only [Disk.exec] at he
          split at he
          · assumption
          · simp at he
      | _ => trivial
  | nowMillis | nowV7 => trivial
  | fault hf => exact hf.elim
  | shortWrite hf => exact hf.elim

theorem Courteous.step (h : Courteous σ c) (hs : Step (Env False) c ev c') :
    ∃ τ, (σ ev.call).spend ev.effect = some τ ∧ Courteous (Function.update σ ev.call τ) c' := by
  obtain ⟨next,hp,hn⟩ := hs.caller
  have hcall := h.calls ev.call
  rw [hp] at hcall
  obtain ⟨τ,hspend,hnext⟩ := hcall.asked (env_fits hs.world)
  refine ⟨τ,hspend,fun i => ?_,held_step hs.world hspend h.held⟩
  by_cases hie : ev.call = i
  · subst hie
    rw [hn,Function.update_self]
    exact hnext _ (env_granted hs.world)
  · rw [hs.others hie,Function.update_of_ne (Ne.symm hie)]
    exact h.calls i

theorem Courteous.run (h : Courteous σ c) (hr : Run (Env False) c tr c') :
    ∃ σ', Courteous σ' c' ∧ ∀ i, Trace.of i tr = [] → σ' i = σ i := by
  induction hr with
  | nil => exact ⟨σ,h,fun _ _ => rfl⟩
  | @snoc tr ev _ _ _ hs ih =>
      obtain ⟨σ₁,h₁,hsame⟩ := ih
      obtain ⟨τ,-,h₂⟩ := h₁.step hs
      refine ⟨_,h₂,fun i hi => ?_⟩
      by_cases hie : ev.call = i
      · subst hie
        simp [Trace.of_snoc_self] at hi
      · rw [Trace.of_snoc_other tr hie] at hi
        rw [Function.update_of_ne (Ne.symm hie),hsame i hi]

theorem Courteous.unlocked (h : Courteous σ c)
    (hdone : ∀ i, (σ i).held = none ∨ ∃ a, c.calls i = .done a) (ino : ℕ) :
    c.world.locks ino = [] := by
  by_contra hsome
  obtain ⟨x,hx⟩ := List.exists_mem_of_ne_nil _ hsome
  have hheld := h.held ino x hx
  rcases hdone x.1 with hnone | ⟨a,ha⟩
  · simp [hnone] at hheld
  · have hholder := h.calls x.1
    rw [ha] at hholder
    rw [hholder.finished] at hheld
    simp at hheld

theorem Live.run (h : Live n σ c) (hr : Run (Env False) c tr c') (hn : ∀ ev ∈ tr, ev.call < n) :
    ∃ σ', Live n σ' c' := by
  induction hr with
  | nil => exact ⟨σ,h⟩
  | @snoc tr ev _ _ _ hs ih =>
      obtain ⟨σ₁,h₁⟩ := ih (fun e he => hn e (by simp [he]))
      have hev : ev.call < n := hn _ (by simp)
      obtain ⟨τ,hspend,hnext⟩ := h₁.step hs
      refine ⟨_,hnext,fun i hi => ?_,spare_step hev hs.world hspend h₁.spare⟩
      rw [Function.update_of_ne (by omega)]
      exact h₁.idle i hi

theorem Live.answers (h : Live n σ c) (hi : i < n) {next : SysReply e → Fs α}
    (hp : c.calls i = .perform e next) (hl : ∀ ino mode, e ≠ .lock ino mode) :
    Overlong (c.calls i) ∨ ∃ ev c', ev.call = i ∧ Step (Env False) c ev c' := by
  by_cases hw : ∀ ino bytes, e = .writeAll ino bytes → bytes.length < 2 ^ 63
  · have hfits : Fits e := by
      cases e with
      | writeAll ino bytes => exact hw ino bytes rfl
      | _ => trivial
    have hcall := h.calls i
    rw [hp] at hcall
    obtain ⟨τ,hspend,-⟩ := hcall.asked hfits
    suffices ∃ r d', Env False c.world ⟨i,e,r⟩ d' by
      obtain ⟨r,d',henv⟩ := this
      exact .inr ⟨⟨i,e,r⟩,_,rfl,@Step.perform _ _ _ _ _ c ⟨i,e,r⟩ next d' hp henv⟩
    by_cases hu : ∃ ino, e = .unlock ino
    · obtain ⟨ino,rfl⟩ := hu
      exact ⟨_,_,.exec rfl⟩
    · push Not at hu
      by_cases hv : e = .nowV7
      · subst hv
        obtain ⟨free,hfree,hcard⟩ := h.spare
        have hdraws := spend_nowV7 hspend
        have hle := Finset.single_le_sum (f := fun j => (σ j).draws) (fun _ _ => Nat.zero_le _)
          (Finset.mem_range.mpr hi)
        obtain ⟨id,hid⟩ := Finset.card_pos.mp (by omega : 0 < free.card)
        exact ⟨id,_,.nowV7 i id (hfree id hid)⟩
      · obtain ⟨r,d',henv,-⟩ := exec_answers c.world i e hl hu hw hv
        exact ⟨r,d',henv⟩
  · push Not at hw
    obtain ⟨ino,bytes,rfl,hlen⟩ := hw
    exact .inl ⟨ino,bytes,next,hp,hlen⟩

theorem Live.progress (h : Live n σ c) :
    (∀ i < n, ∃ a, c.calls i = .done a) ∨ (∃ i < n, Overlong (c.calls i)) ∨
      ∃ ev c', ev.call < n ∧ Step (Env False) c ev c' := by
  by_cases hdone : ∀ i < n, ∃ a, c.calls i = .done a
  · exact .inl hdone
  · right
    have hmoves : ∀ {i e} {next : SysReply e → Fs α}, i < n → c.calls i = .perform e next →
        (∀ ino mode, e ≠ .lock ino mode) → (∃ i < n, Overlong (c.calls i)) ∨
          ∃ ev c', ev.call < n ∧ Step (Env False) c ev c' := by
      intro i e next hi hp hl
      rcases h.answers hi hp hl with hlong | ⟨ev,c',hev,hs⟩
      · exact .inl ⟨i,hi,hlong⟩
      · exact .inr ⟨ev,c',hev ▸ hi,hs⟩
    push Not at hdone
    obtain ⟨i,hi,hnot⟩ := hdone
    cases hp : c.calls i with
    | done a => exact absurd hp (hnot a)
    | perform e next =>
        by_cases hl : ∃ ino mode, e = .lock ino mode
        · obtain ⟨ino,mode,rfl⟩ := hl
          cases hg : c.world.grantable ino mode with
          | true =>
              have henv : Env False c.world ⟨i,.lock ino mode,.ok ()⟩ (c.world.lock i ino mode) :=
                .exec (if_pos hg)
              exact .inr ⟨_,_,hi,@Step.perform _ _ _ _ _ c ⟨i,_,_⟩ next _ hp henv⟩
          | false =>
              have hsome : c.world.locks ino ≠ [] := by
                intro hnil
                cases mode <;> simp [Disk.grantable,hnil] at hg
              obtain ⟨x,hx⟩ := List.exists_mem_of_ne_nil _ hsome
              have hheld := h.held ino x hx
              have hxn : x.1 < n := by
                by_contra hge
                rw [h.idle x.1 (Nat.not_lt.mp hge)] at hheld
                simp at hheld
              have hholder := h.calls x.1
              -- The holder is not done, for it gives the lock back, and asks for no other lock.
              cases hpx : c.calls x.1 with
              | done a =>
                  rw [hpx] at hholder
                  rw [hholder.finished] at hheld
                  simp at hheld
              | perform e' next' =>
                  refine hmoves hxn hpx ?_
                  rintro k m rfl
                  rw [hpx] at hholder
                  obtain ⟨τ,hspend,-⟩ := hholder.asked trivial
                  rw [(spend_lock hspend).1] at hheld
                  simp at hheld
        · push Not at hl
          exact hmoves hi hp hl

end Progress

section Pools

variable {α ε : Type} {σ : Allowance} {n k : ℕ}

def draws : Effect → ℕ
  | .store (.get _) => 0
  | .store (.create _ _) => 2
  | .store (.replace _ _ _) => 2
  | .nowMillis => 0
  | .nowV7 => 1

def price (root : Path) : Effect → ℕ
  | .store q => requests root q.location
  | .nowMillis => 1
  | .nowV7 => 1

theorem orderly_serve (self : FilesystemStore) (q : Request) (hσ : σ.held = none)
    (hdraws : draws (.store q) + n ≤ σ.draws) :
    Orderly Fits (fun _ τ => τ.held = none ∧ n ≤ τ.draws) (self.serve q) σ := by
  cases q with
  | get l =>
      refine (orderly_get self l hσ).mono (fun _ τ hτ => ?_)
      subst hτ
      exact ⟨hσ,by omega⟩
  | create l b =>
      have hdraws : 2 + n ≤ σ.draws := hdraws
      exact Orderly.map (orderly_create self l (fun _ _ h => h) hσ (by omega))
  | replace l x b =>
      have hdraws : 2 + n ≤ σ.draws := hdraws
      exact Orderly.map (orderly_replace self l x (fun _ _ h => h) hσ (by omega))

theorem orderly_perform (self : FilesystemStore) {p : Action StoreError α} (hp : p.Within draws k)
    (hσ : σ.held = none) (hk : k ≤ σ.draws) :
    Orderly Fits (fun _ τ => τ.held = none) (self.perform p) σ := by
  induction p generalizing σ k with
  | done a => exact Orderly.done hσ
  | perform e next ih =>
      obtain ⟨m,rfl,hm⟩ := hp
      cases e with
      | store q =>
          refine Orderly.bind ((orderly_serve self q hσ hk).mono (fun r τ hτ => ?_))
          exact ih r (hm r) hτ.1 hτ.2
      | nowMillis =>
          refine Orderly.ask rfl (fun now _ => ih now (hm now) hσ ?_)
          exact Nat.le_trans (Nat.le_add_left ..) hk
      | nowV7 =>
          have hk : 1 + m ≤ σ.draws := hk
          refine orderly_draw (n := m) (by omega) (fun id τ hheld hdraws => ?_)
          exact ih id (hm id) (hheld.trans hσ) hdraws

theorem takes_perform (root : Path) {p : Action StoreError α} (hp : p.Within (price root) k) :
    (FilesystemStore.perform ⟨root⟩ p).Takes k := by
  induction p generalizing k with
  | done a => trivial
  | perform e next ih =>
      obtain ⟨m,rfl,hm⟩ := hp
      cases e with
      | store q => exact (takes_serve root q).bind (fun r => ih r (hm r))
      | nowMillis | nowV7 => exact ⟨m,rfl,fun r => ih r (hm r)⟩

def budget (root : Path) (call : Call) : ℕ :=
  2 + 3 * call.handle.elim 0 (fun t => requests root t.location)

theorem price_tariff (root : Path) (l : Location) :
    Tariff (price root) l 1 1 (requests root l) (requests root l) := by
  constructor <;> simp [price,Request.location]

theorem draws_tariff (l : Location) : Tariff draws l 0 1 0 2 := by
  constructor <;> simp [draws]

theorem call_within (root : Path) (call : Call) :
    (call.program (ε := StoreError)).Within (price root) (budget root call) := by
  let cost := call.handle.elim 0 (fun t => requests root t.location)
  have hwithin := call.program_within (ε := StoreError) (w := price root) 1 1 cost cost
    (fun t ht => ?_)
  · refine hwithin.mono ?_
    change 1 + 1 + 2 * cost + cost ≤ 2 + 3 * cost
    omega
  · have hcost : cost = requests root t.location := by simp [cost,ht]
    rw [hcost]
    exact price_tariff root t.location

theorem call_draws (call : Call) : (call.program (ε := StoreError)).Within draws 3 :=
  call.program_within 0 1 0 2 (fun t _ => draws_tariff t.location)

section Actions

variable {root : Path} {A : ℕ → Action StoreError α} {d : Disk} {tr : Trace SysReply}
  {c : Config Disk SysReply α} {cost : ℕ → ℕ}

theorem actions_live (hdraws : ∀ i, (A i).Within draws 3) (hfree : ∀ ino, d.locks ino = [])
    (hids : ∃ unused : Finset Uuid, (∀ id ∈ unused, d.drawn id = none) ∧ 3 * n ≤ unused.card)
    (hr : Run (Env False) ⟨d,fun i => FilesystemStore.perform ⟨root⟩ (A i)⟩ tr c)
    (hn : ∀ ev ∈ tr, ev.call < n) : ∃ σ, Live n σ c := by
  obtain ⟨unused,hunused,hcard⟩ := hids
  have hstart : Live n (fun _ => ⟨none,3⟩) ⟨d,fun i => FilesystemStore.perform ⟨root⟩ (A i)⟩ := by
    refine ⟨⟨fun i => orderly_perform ⟨root⟩ (hdraws i) rfl (Nat.le_refl 3),fun ino x hx => ?_⟩,
      fun _ _ => rfl,unused,hunused,?_⟩
    · simp [hfree] at hx
    · simpa [Nat.mul_comm] using hcard
  exact hstart.run hr hn

theorem Live.unlocked_of_done {σ : ℕ → Allowance} (h : Live n σ c)
    (hdone : ∀ i < n, ∃ a, c.calls i = .done a) (ino : ℕ) : c.world.locks ino = [] := by
  refine h.unlocked (fun i => ?_) ino
  by_cases hi : i < n
  · exact .inr (hdone i hi)
  · exact .inl (h.idle i (Nat.not_lt.mp hi))

theorem actions_complete (hdraws : ∀ i, (A i).Within draws 3)
    (hcost : ∀ i, (A i).Within (price root) (cost i)) (hfree : ∀ ino, d.locks ino = [])
    (hids : ∃ unused : Finset Uuid, (∀ id ∈ unused, d.drawn id = none) ∧ 3 * n ≤ unused.card)
    (hr : Run (Env False) ⟨d,fun i => FilesystemStore.perform ⟨root⟩ (A i)⟩ tr c)
    (hn : ∀ ev ∈ tr, ev.call < n) :
    tr.length ≤ ∑ i ∈ Finset.range n, cost i ∧
      ((∀ i < n, ∃ a, c.calls i = .done a) ∧ (∀ ino, c.world.locks ino = []) ∨
        (∃ i < n, Overlong (c.calls i)) ∨ ∃ ev c', ev.call < n ∧ Step (Env False) c ev c') := by
  constructor
  · rw [← Trace.cost_one]
    exact hr.cost_le hn (fun i _ => takes_perform root (hcost i))
  · obtain ⟨σ,hlive⟩ := actions_live hdraws hfree hids hr hn
    rcases hlive.progress with hdone | hrest
    · exact .inl ⟨hdone,hlive.unlocked_of_done hdone⟩
    · exact .inr hrest

end Actions

variable {root : Path} {calls : ℕ → Call} {d : Disk} {tr : Trace SysReply}
  {c : Config Disk SysReply Verdict}

-- However the calls are scheduled, they all come to their end, and no lock stays behind.
theorem calls_complete (hfree : ∀ ino, d.locks ino = [])
    (hids : ∃ unused : Finset Uuid, (∀ id ∈ unused, d.drawn id = none) ∧ 3 * n ≤ unused.card)
    (hr : Run (Env False) ⟨d,fun i => FilesystemStore.perform ⟨root⟩ (calls i).program⟩ tr c)
    (hn : ∀ ev ∈ tr, ev.call < n) :
    tr.length ≤ ∑ i ∈ Finset.range n, budget root (calls i) ∧
      ((∀ i < n, ∃ v, c.calls i = .done v) ∧ (∀ ino, c.world.locks ino = []) ∨
        (∃ i < n, Overlong (c.calls i)) ∨ ∃ ev c', ev.call < n ∧ Step (Env False) c ev c') :=
  actions_complete (fun i => call_draws (calls i)) (fun i => call_within root (calls i)) hfree hids
    hr hn

-- A map is created, and two calls insert into what they have both read.
def rivals (i : ℕ) : Call :=
  if i = 0 then .mapLifecycle ((MapBuilder.new "shop" "orders" textCodec compact).withSchema "v1")
    .create
  else .map Map.orders (.insert "a" "1")

theorem rival_inserts_complete : ∃ tr c,
    Run (Env False) ⟨emptyRoot,fun i => FilesystemStore.perform ⟨[]⟩ (rivals i).program⟩ tr c ∧
      tr.length ≤ ∑ i ∈ Finset.range 3, budget [] (rivals i) ∧
      c.calls 0 = .done (.ok .positive) ∧ c.calls 1 = .done (.error .conflict) ∧
      c.calls 2 = .done (.ok .positive) ∧ ∀ ino, c.world.locks ino = [] := by
  have hplay : plays Script.answer Script.disk [(0,40),(1,9),(2,40),(1,40)]
      ⟨⟨[0,1,2,3,4,5],emptyRoot⟩,fun i => FilesystemStore.perform ⟨[]⟩ (rivals i).program⟩
      (fun tr c => ended (· = .ok .positive) (c.calls 0) &&
        ended (· = .error .conflict) (c.calls 1) && ended (· = .ok .positive) (c.calls 2) &&
        tr.all (fun ev => ev.call < 3)) = true := by
    decide +kernel
  obtain ⟨tr,c,hr,hends⟩ := Script.run hplay
  simp only [Bool.and_eq_true,ended_iff,decide_eq_true_eq,List.all_eq_true] at hends
  obtain ⟨⟨⟨⟨_,h0,rfl⟩,⟨_,h1,rfl⟩⟩,⟨_,h2,rfl⟩⟩,hn⟩ := hends
  have hids : ∃ unused : Finset Uuid, (∀ id ∈ unused, emptyRoot.drawn id = none) ∧
      3 * 3 ≤ unused.card :=
    ⟨{0,1,2,3,4,5,6,7,8},fun id _ => emptyRoot_pristine.drawn id,by decide⟩
  have hdone : ∀ i < 3, ∃ v, c.calls i = .done v := by
    intro i hi
    obtain rfl | rfl | rfl : i = 0 ∨ i = 1 ∨ i = 2 := by omega
    · exact ⟨_,h0⟩
    · exact ⟨_,h1⟩
    · exact ⟨_,h2⟩
  obtain ⟨hlen,hstop⟩ := calls_complete emptyRoot_pristine.locks hids hr hn
  refine ⟨tr,c,hr,hlen,h0,h1,h2,?_⟩
  rcases hstop with ⟨-,hlocks⟩ | ⟨i,hi,ino,bytes,next,hp,-⟩ | ⟨ev,c',hev,hstep⟩
  · exact hlocks
  · obtain ⟨v,hv⟩ := hdone i hi
    simp [hv] at hp
  · obtain ⟨v,hv⟩ := hdone _ hev
    obtain ⟨next,hp,-⟩ := hstep.caller
    simp [hv] at hp

end Pools

end Filesystem

end Objsds
