import Objsds.Filesystem.Pieces

namespace Objsds

open Foundation

namespace Filesystem

variable {K : Setting} {i : ℕ} {l : Location} {α β γ : Type} {rq : Request} {ino : ℕ}
  {next : rq.Response StoreError → Action StoreError β} {mode : LockMode} {made : Prop}

section Programs

theorem objectPath_bind (h : accepted l.asStr = true) (f : Target → FsResult StoreError α) :
    objectPath K.root l >>= f =
      (ExceptT.mk (rejectExistingSymlinks K.root (names l.asStr)) >>= fun _ => f (K.object l)) := by
  rw [objectPath,if_pos h,bind_assoc]
  simp only [pure_bind,Setting.object]

theorem parentOf_snoc (p : Path) (c : String) (f : Path → FsResult StoreError α) :
    parentOf (p ++ [c]) >>= f = f p := by
  have hp : parent (p ++ [c]) = some p := by
    cases p with
    | nil => rfl
    | cons x p =>
        have hd : (x :: p ++ [c]).dropLast = x :: p := List.dropLast_concat
        simpa [parent] using hd
  simp [parentOf,hp]

theorem parentOf_object (h : accepted l.asStr = true) (f : Path → FsResult StoreError α) :
    parentOf (K.object l).path >>= f = f (K.dir l) := by
  obtain ⟨name,hname,-⟩ := Setting.object_split (K := K) h
  rw [hname,parentOf_snoc]

theorem parentOf_lock (f : Path → FsResult StoreError α) :
    parentOf (K.lock l) >>= f = f (K.root ++ [lockDir]) := by
  rw [Setting.lock_split,parentOf_snoc]

end Programs

section Acquiring

-- The lock is held; if for writing, the object at the location is the one on record.
structure Acquired (K : Setting) (i : ℕ) (l : Location) (ino : ℕ) (mode : LockMode) (made : Prop)
    (d : Disk) (s : Ideal.State) : Prop where
  holding : Holding K i l ino mode d s
  dir : made → IsDir (K.dir l) d s
  settled : mode = .exclusive → K.Shows d l (s.objects l)

theorem keeps_acquired (hl : K.sites l) : Keeps K i (Acquired K i l ino mode made) := by
  intro j hj d s d₁ s₁ hi hi₁ hg hp
  refine ⟨keeps_holding hl _ j hj d s d₁ s₁ hi hi₁ hg hp.holding,fun hm => hg.dirs _ (hp.dir hm),?_⟩
  rintro rfl
  have hnot := hp.holding.not_other hi hj
  rw [(hg.objects l hl hnot).1]
  exact hg.shows hi hl hnot (hp.settled rfl)

theorem Acquired.shows {d : Disk} {s : Ideal.State} (h : Acquired K i l ino mode made d s)
    (hi : Inv K d s) (hl : K.sites l) : K.Shows d l (s.objects l) := by
  cases mode with
  | exclusive => exact h.settled rfl
  | shared =>
      refine hi.settled l hl ?_
      rintro j ⟨k,hk,hj⟩
      obtain rfl := Node.file.inj (Option.some.inj (h.holding.file.symm.trans hk))
      have hm := h.holding.held
      rw [hi.exclusive ino j hj] at hm
      simp at hm

theorem openLock_piece (hK : K.Sound) (hl : K.sites l) :
    (simulation K).Triple i (io (Program.request (Sys.openLock (K.lock l)))).run
      (At (Idle K i l made) (.perform (.store rq) next))
      (Piece next (fun ino d s => Idle K i l made d s ∧ d.entries (K.lock l) = some (.file ino))
        (Idle K i l made)) := by
  refine request_piece _ (keeps_idle made) ?_
  intro d s r d₁ hi hidle henv
  cases henv with
  | fault hf hr =>
      obtain rfl := Option.some.inj hr
      exact ⟨hi,Guar.refl i d s,.inr ⟨_,rfl,hK.reliable hf,hidle⟩⟩
  | exec he =>
      have hclear := hi.tree.clearLock l hl
      have hres : d.resolve (K.lock l) = .ok (K.lock l) := by
        rw [Setting.lock_split] at hclear ⊢
        exact Disk.resolve_child hi.tree.wf hclear hi.tree.locksDir
      have hne : K.lock l ≠ [] := by simp [Setting.lock_split]
      simp only [Disk.exec,Disk.openLock,hres,Disk.node_of_ne hne,Option.some.injEq] at he
      cases hn : d.entries (K.lock l) with
      | none =>
          simp only [hn,Prod.mk.injEq] at he
          obtain ⟨rfl,rfl⟩ := he
          obtain ⟨hi₁,hg⟩ := newLock_step hK hi hl hn i
          refine ⟨hi₁,hg,.inl ⟨d.next,rfl,hidle.step hg rfl,?_⟩⟩
          simp [Disk.newFile,Disk.set]
      | some n =>
          cases n with
          | file k =>
              simp only [hn,Prod.mk.injEq] at he
              obtain ⟨rfl,rfl⟩ := he
              exact ⟨hi,Guar.refl i d s,.inl ⟨k,rfl,hidle,hn⟩⟩
          | dir =>
              simp only [hn,Prod.mk.injEq] at he
              obtain ⟨rfl,rfl⟩ := he
              refine ⟨hi,Guar.refl i d s,.inr ⟨_,rfl,?_,hidle⟩⟩
              by_contra hx
              exact (hi.tree.files hx l hl).2 hn
          | link t => exact absurd hn (hclear _ (List.prefix_refl _) t)

theorem lock_piece (hK : K.Sound) (hl : K.sites l) (ino : ℕ) :
    (simulation K).Triple i (io (Program.request (Sys.lock ino mode))).run
      (At (fun d s => Idle K i l made d s ∧ d.entries (K.lock l) = some (.file ino))
        (.perform (.store rq) next))
      (Piece next (fun _ => Acquired K i l ino mode made) (Idle K i l made)) := by
  have hkeep : Keeps K i (fun d s => Idle K i l made d s ∧
      d.entries (K.lock l) = some (.file ino)) :=
    (keeps_idle made).and (fun j hj d s d₁ s₁ _ _ hg hp => hg.lockFile l ino hl hp)
  refine request_piece _ hkeep ?_
  rintro d s r d₁ hi ⟨hidle,hfile⟩ henv
  cases henv with
  | fault hf hr =>
      obtain rfl := Option.some.inj hr
      exact ⟨hi,Guar.refl i d s,.inr ⟨_,rfl,hK.reliable hf,hidle⟩⟩
  | exec he =>
      simp only [Disk.exec] at he
      split at he
      · rename_i hgrant
        obtain ⟨rfl,rfl⟩ := Prod.mk.inj (Option.some.inj he)
        obtain ⟨hi₁,hg⟩ := lock_step hi hfile hgrant i
        refine ⟨hi₁,hg,.inl ⟨(),rfl,⟨hfile,Disk.mem_lock.mpr (.inl ⟨rfl,rfl,rfl⟩),?_⟩,
          fun hm => hg.dirs _ (hidle.2 hm),?_⟩⟩
        · intro k m hm
          rcases Disk.mem_lock.mp hm with ⟨hk,-⟩ | hm
          · exact hk
          · exact absurd hm (hidle.1 k m)
        · rintro rfl
          have hempty : d.locks ino = [] := by simpa [Disk.grantable] using hgrant
          have hshow : K.Shows d l (s.objects l) := by
            refine hi.settled l hl ?_
            rintro j ⟨k,hk,hj⟩
            obtain rfl := Node.file.inj (Option.some.inj (hfile.symm.trans hk))
            simp [hempty] at hj
          exact hshow.congr rfl (fun _ _ => rfl)
      · simp at he

theorem acquire_piece (hK : K.Sound) (hl : K.sites l) :
    (simulation K).Triple i (ObjectLock.acquire (K.lock l) mode).run
      (At (Idle K i l made) (.perform (.store rq) next))
      (Piece next (fun ino => Acquired K i l ino mode made) (Idle K i l made)) := by
  rw [ObjectLock.acquire,parentOf_lock]
  refine Simulation.Triple.bindExcept (createDirAll_piece hK hl (.inr (List.prefix_refl _)))
    (fun _ => ?_) (fun _ _ _ _ _ h => h)
  refine Simulation.Triple.bindExcept ((openLock_piece hK hl).pre (fun _ _ _ _ h => ⟨h.1,h.2.1⟩))
    (fun ino => ?_) (fun _ _ _ _ _ h => h)
  refine Simulation.Triple.bindExcept (lock_piece hK hl ino) (fun _ => ?_) (fun _ _ _ _ _ h => h)
  exact fun _ _ _ _ h => h

end Acquiring

end Filesystem

end Objsds
