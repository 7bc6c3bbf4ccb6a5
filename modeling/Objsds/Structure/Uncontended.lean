import Objsds.Foundation.Solo
import Objsds.Memory.Tokens
import Objsds.Structure.Genesis
import Objsds.Structure.Undisturbed

namespace Objsds

open Foundation

variable {D Err ε α : Type} {m : Medium D Err ε} {i : ℕ}

section Stores

variable {S : ObjectStore ε} {s s' : S.State} {h : List (Sigma (Reply ε))} {result : Except Err α}

theorem solo_transact {plan : D → Plan D Err α} {o : Object} {d : D}
    (hs : Solo S.Env i s ((Procedure.transact plan).program m) h s' result)
    (ho : S.objects s m.location = some o) (hd : m.decode o.bytes = .ok d) :
    (∃ source, result = .error (m.storeError source) ∧ ∃ x ∈ h, storeFailed x) ∨
      ∃ s₁ h₁ r, h = ⟨.store (.get m.location),r⟩ :: h₁ ∧ S.objects s₁ = S.objects s ∧
        Solo S.Env i s₁ ((plan d).program m o.version) h₁ s' result := by
  obtain ⟨r,h₁,s₁,rfl,henv,hn⟩ := Solo.perform_iff.mp hs
  have hobj : S.objects s₁ = S.objects s := by
    funext l
    rw [henv.objects_eq l]
    simp [stores,Request.stores]
  rcases henv.atomic.got_inv with rfl | ⟨source,rfl⟩
  · rw [ho,Medium.resume_ok hd] at hn
    exact .inr ⟨s₁,h₁,_,rfl,hobj,hn⟩
  · obtain ⟨-,-,rfl⟩ := Solo.done_iff.mp hn
    exact .inl ⟨source,rfl,_,List.mem_cons_self ..,source,rfl⟩

theorem solo_generate {next : Uuid → Plan D Err α} {x : Version}
    (hs : Solo S.Env i s ((Plan.generate next).program m x) h s' result) :
    ∃ id h₁, h = ⟨.nowV7,id⟩ :: h₁ ∧ Solo S.Env i s ((next id).program m x) h₁ s' result := by
  obtain ⟨id,h₁,s₁,rfl,henv,hn⟩ := Solo.perform_iff.mp hs
  cases henv with
  | nowV7 => exact ⟨id,h₁,rfl,hn⟩

theorem solo_commit {d : D} {reply : Version → α} {x : Version} {a : α}
    (hs : Solo S.Env i s ((Plan.commit d reply).program m x) h s' (.ok a)) :
    ∃ b v, m.encode d = .ok b ∧ a = reply v ∧ S.objects s' m.location = some ⟨b,v⟩ ∧
      identifiers h = [] := by
  simp only [Plan.program] at hs
  split at hs
  · obtain ⟨-,-,he⟩ := Solo.done_iff.mp hs
    simp at he
  · rename_i b hb
    obtain ⟨r,h₁,s₁,rfl,henv,hn⟩ := Solo.perform_iff.mp hs
    obtain ⟨rfl,rfl,hr⟩ := Solo.done_iff.mp hn
    cases r with
    | replaced v =>
        refine ⟨b,v,hb,Except.ok.inj hr,?_,rfl⟩
        rw [henv.objects_eq m.location]
        simp [stores,Request.stores,ReplaceReply.written]
    | conflict observed | failed source | uncertain source v =>
        simp [Medium.settle,ReplaceReply.result] at hr

theorem solo_read {f : D → Except Err α}
    (hs : Solo S.Env i s ((Procedure.transact (fun d => .respond (f d))).program m) h s' result)
    (hok : ∀ x ∈ h, ¬ storeFailed x) :
    result = (m.snapshot (.ok (S.objects s m.location))).bind (fun p => f p.2) := by
  obtain ⟨r,h₁,s₁,rfl,henv,hn⟩ := Solo.perform_iff.mp hs
  rcases henv.atomic.got_inv with rfl | ⟨source,rfl⟩
  · simp only [Medium.resume] at hn
    split at hn
    · rename_i e he
      obtain ⟨-,-,rfl⟩ := Solo.done_iff.mp hn
      rw [he]
      rfl
    · rename_i version d he
      obtain ⟨-,-,rfl⟩ := Solo.done_iff.mp hn
      rw [he]
      rfl
  · exact absurd ⟨source,rfl⟩ (hok _ (List.mem_cons_self ..))

end Stores

section Memory

variable {m : Medium D Err Empty} {s s' : Memory.State} {h : List (Sigma (Reply Empty))}
  {result : Except Err α}

theorem memory_get {l : Location} {o : Object}
    {next : Except Empty (Option Object) → Action Empty (Except Err α)}
    (ho : s.objects l = some o) (hs : Solo Memory.store.Env i s (next (.ok (some o))) h s' result) :
    Solo Memory.store.Env i s (.perform (.store (.get l)) next)
      (⟨.store (.get l),.ok (some o)⟩ :: h) s' result := by
  refine .perform (.store ?_) hs
  change Memory.get s l = _
  rw [Memory.get,ho]

theorem memory_transact {plan : D → Plan D Err α} {o : Object} {d : D}
    (ho : s.objects m.location = some o) (hd : m.decode o.bytes = .ok d)
    (hs : Solo Memory.store.Env i s ((plan d).program m o.version) h s' result) :
    Solo Memory.store.Env i s ((Procedure.transact plan).program m)
      (⟨.store (.get m.location),.ok (some o)⟩ :: h) s' result := by
  refine memory_get ho ?_
  rw [Medium.resume_ok hd]
  exact hs

theorem memory_generate {next : Uuid → Plan D Err α} {x : Version} (id : Uuid)
    (hs : Solo Memory.store.Env i s ((next id).program m x) h s' result) :
    Solo Memory.store.Env i s ((Plan.generate next).program m x) (⟨.nowV7,id⟩ :: h) s' result :=
  .perform (.nowV7 i id) hs

theorem memory_clock {next : UInt64 → Procedure D Err α} (now : UInt64)
    (hs : Solo Memory.store.Env i s ((next now).program m) h s' result) :
    Solo Memory.store.Env i s ((Procedure.clock next).program m) (⟨.nowMillis,now⟩ :: h) s' result :=
  .perform (.nowMillis i now) hs

def replaced (s : Memory.State) (l : Location) (b : Bytes) : Memory.State :=
  { s.version.2 with objects := s.objects.put l ⟨b,s.version.1⟩ }

theorem memory_commit {d : D} {reply : Version → α} {o : Object} {b : Bytes}
    (ho : s.objects m.location = some o) (hb : m.encode d = .ok b) :
    Solo Memory.store.Env i s ((Plan.commit d reply).program m o.version)
      [⟨.store (.replace m.location o.version b),.replaced s.version.1⟩]
      (replaced s m.location b) (.ok (reply s.version.1)) := by
  have hp : (Plan.commit d reply).program m o.version =
      .perform (.store (.replace m.location o.version b))
        (fun r => .done (m.settle o.version reply r)) := by
    simp [Plan.program,hb]
  rw [hp]
  refine .perform (.store ?_) .done
  change Memory.replace s m.location o.version b = _
  simp [Memory.replace,ho,replaced]

theorem memory_missed {plan : D → Plan D Err α} {o : Object} {e : Err}
    (ho : s.objects m.location = some o) (hd : m.decode o.bytes = .error e) :
    Solo Memory.store.Env i s ((Procedure.transact plan).program m)
      [⟨.store (.get m.location),.ok (some o)⟩] s (.error e) := by
  refine memory_get ho ?_
  have hr : m.resume plan (.ok (some o)) = .done (.error e) := by
    simp [Medium.resume,Medium.snapshot,hd,Except.map]
  rw [hr]
  exact .done

theorem replaced_objects (s : Memory.State) (l : Location) (b : Bytes) :
    (replaced s l b).objects l = some ⟨b,s.version.1⟩ :=
  Objects.put_self ..

theorem memory_establish {g : Genesis D Err Empty} {b : Bytes}
    {lost : Version → Action Empty (Except Err Unit)} (ho : s.objects g.location = none)
    (hb : g.emptyBytes = .ok b) :
    Solo Memory.store.Env i s (g.establish lost)
      [⟨.store (.create g.location b),.created s.version.1⟩] (Memory.create s g.location b).2
      (.ok ()) := by
  simp only [Genesis.establish,hb]
  refine .perform (.store ?_) .done
  change Memory.create s g.location b = _
  simp only [Memory.create,ho]

def stocked (l : Location) (b : Bytes) : Memory.State := (Memory.create .default l b).2

theorem stocked_objects (l : Location) (b : Bytes) :
    (stocked l b).objects l = some ⟨b,⟨"1"⟩⟩ :=
  Memory.create_absent b rfl

theorem stocked_issued (l : Location) (b : Bytes) : (stocked l b).Issued := by
  intro l' o ho
  by_cases hl : l' = l
  · subst hl
    rw [stocked_objects] at ho
    exact ⟨1,Nat.le_refl 1,by rw [← Option.some.inj ho]; rfl⟩
  · have hnone : (stocked l b).objects l' = none := Objects.put_other _ hl
    simp [hnone] at ho

theorem stocked_coherent {β : Type} {l : Location} {b : Bytes} {calls : ℕ → Action Empty β}
    {c : Config Memory.store.State (Reply Empty) β} {tr : Trace (Reply Empty)}
    (h : Run Memory.store.Env ⟨stocked l b,calls⟩ tr c) (hlt : (writes tr).length < 2 ^ 63) :
    Coherent (held ((stocked l b).objects l) l tr) := by
  have hstart : (stocked l b).nextVersion.toNat = 1 := rfl
  exact Memory.coherent_of_nodup
    (Memory.held_nodup h (stocked_issued l b) (by simp only [hstart]; omega) l)

end Memory

end Objsds
