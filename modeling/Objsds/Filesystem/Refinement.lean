import Objsds.Filesystem.Layout

namespace Objsds

open Foundation FilesystemStore

namespace Filesystem

section Pools

variable {α : Type} {K : Setting} {A : ℕ → Action StoreError α} {d : Disk} {s : Ideal.State}
  {tr : Trace SysReply} {c' : Config Disk SysReply α}

theorem pool_refines (hK : K.Sound) (hi : Inv K d s) (hfree : ∀ ino, d.locks ino = [])
    (hA : ∀ i, K.Serves (A i)) (ho : K.lax → ∀ i, Oblivious (A i))
    (h : Run (Env K.faults) ⟨d,fun i => perform ⟨K.root⟩ (A i)⟩ tr c') :
    ∃ marks m', (simulation K).Marks tr marks ∧
      Run (Ideal.store StoreError K.lax).Env ⟨s,A⟩ marks.reduceOption m' ∧
      Inv K c'.world m'.world ∧ ∀ i a, c'.calls i = .done a → m'.calls i = .done a := by
  have hstart : (simulation K).Related (fun i a => At (Free i) (.done a)) (fun _ a q => q = .done a)
      ⟨d,fun i => perform ⟨K.root⟩ (A i)⟩ ⟨s,A⟩ := by
    refine ⟨hi,fun i => .inl ⟨At (Free i) (A i),(keeps_free i).stable _,⟨rfl,?_⟩,?_⟩⟩
    · intro ino mode hm
      simp [hfree] at hm
    · exact perform_triple hK (hA i) (fun hlax => ho hlax i)
  obtain ⟨marks,m',hrel,hmarks,hrun⟩ :=
    hstart.run (fun i a w w' q _ hq => hq.1) h
  refine ⟨marks,m',hmarks,hrun,hrel.inv,?_⟩
  intro i a ha
  rcases hrel.calls i with ⟨P,-,hp,ht⟩ | ⟨a',ha',hq⟩
  · rw [ha] at ht
    exact (ht _ _ _ hrel.inv hp).1
  · rw [ha] at ha'
    rw [hq,Program.done.inj ha']

end Pools

end Filesystem

end Objsds
