import Objsds.Filesystem.Knowledge

namespace Objsds

open Foundation

namespace Filesystem

variable {K : Setting} {i : ℕ} {l : Location} {α β : Type} {rq : Request}
  {next : rq.Response StoreError → Action StoreError β}

-- A part of a call either goes on with the request still open or has failed it.
def Piece (next : rq.Response StoreError → Action StoreError β) (P : α → Fact) (F : Fact) :
    Except StoreError α → Assertion (Reply StoreError) Disk Ideal.State β
  | .ok a => At (P a) (.perform (.store rq) next)
  | .error e => At F (next (rq.failed e))

theorem Shown.failed (x : Sigma SysReply) (rq : Request) (e : StoreError) :
    Shown K x ⟨.store rq,rq.failed e⟩ := by
  cases rq <;> exact trivial

theorem advance_failed {s : Ideal.State} (hlax : K.lax) (ev : Event SysReply)
    (e : StoreError) (next : rq.Response StoreError → Action StoreError β) :
    ∃ mark, (simulation K).Advance i s (.perform (.store rq) next) mark s (next (rq.failed e)) ∧
      (simulation K).shows ev mark := by
  refine ⟨_,.emit (.store (Ideal.step_failed hlax rq e)),?_⟩
  intro a ha
  obtain rfl := Option.mem_some_iff.mp ha
  exact Shown.failed _ rq e

theorem request_piece {e : Sys} (view : SysReply e → Except StoreError α) {P₀ F : Fact}
    {P : α → Fact} (hp : Keeps K i P₀)
    (h : ∀ d s r d₁, Inv K d s → P₀ d s → Env K.faults d ⟨i,e,r⟩ d₁ →
      Inv K d₁ s ∧ Guar K i d s d₁ s ∧
        ((∃ a, view r = .ok a ∧ P a d₁ s) ∨ ∃ x, view r = .error x ∧ K.lax ∧ F d₁ s)) :
    (simulation K).Triple i (view <$> Program.request e) (At P₀ (.perform (.store rq) next))
      (Piece next P F) := by
  refine Simulation.Triple.step (fun r => Piece next P F (view r)) (hp.stable _) ?_ ?_
  · rintro d s q r d₁ hi ⟨rfl,hp₀⟩ henv
    obtain ⟨hi₁,hg,⟨a,hv,hpa⟩ | ⟨x,hv,hlax,hf⟩⟩ := h d s r d₁ hi hp₀ henv
    · refine ⟨none,s,_,.silent,by simp [simulation],hi₁,hg,?_⟩
      rw [hv]
      exact ⟨rfl,hpa⟩
    · obtain ⟨mark,ha,hs⟩ := advance_failed hlax ⟨i,e,r⟩ x next
      refine ⟨mark,s,_,ha,hs,hi₁,hg,?_⟩
      rw [hv]
      exact ⟨rfl,hf⟩
  · intro r d s q _ hq
    exact hq

theorem done_piece {P : α → Fact} {F : Fact} (a : α) :
    (simulation K).Triple i (.done (.ok a)) (At (P a) (.perform (.store rq) next))
      (Piece next P F) :=
  fun _ _ _ _ h => h

theorem failed_piece {P : α → Fact} {F : Fact} (e : StoreError) :
    (simulation K).Triple i (.done (.error e)) (At F (next (rq.failed e))) (Piece next P F) :=
  fun _ _ _ _ h => h

section Checks

theorem Inv.proper_clear {d : Disk} {s : Ideal.State} (hK : K.Sound) (h : Inv K d s)
    (hl : K.sites l) (hlax : ¬ K.lax) {p q t : Path} (hp : p <+: (K.object l).path)
    (hq : p = q ++ t) (ht : t ≠ []) (ino : ℕ) : d.entries q ≠ some (.file ino) := by
  refine h.tree.dirs hlax l q ino hl ?_
  obtain ⟨name,hname,-⟩ := Setting.object_split (K := K) (hK.accepted l hl)
  obtain ⟨u,hu⟩ := hp
  rw [hq,hname,List.append_assoc] at hu
  rcases List.eq_nil_or_concat (t ++ u) with htu | ⟨v,c,htu⟩
  · simp [ht] at htu
  · rw [htu,List.concat_eq_append,← List.append_assoc] at hu
    exact ⟨v,(List.append_inj' hu rfl).1⟩

def Inspected (P : Fact) (next : rq.Response StoreError → Action StoreError β) :
    Except IoError FileType → Assertion (Reply StoreError) Disk Ideal.State β
  | .ok .symlink => fun _ _ _ => False
  | .error .notFound => At P (.perform (.store rq) next)
  | .ok _ => At P (.perform (.store rq) next)
  | .error e => At P (next (rq.failed (.io e)))

theorem reject_piece (hK : K.Sound) (hl : K.sites l) {P : Fact} (hp : Keeps K i P)
    {current : Path} {rest : List String} (hpath : current ++ rest = (K.object l).path) :
    (simulation K).Triple i (rejectExistingSymlinks current rest)
      (At P (.perform (.store rq) next)) (Piece next (fun _ => P) P) := by
  induction rest generalizing current with
  | nil => exact done_piece (P := fun _ => P) ()
  | cons c rest ih =>
      have hpre : current ++ [c] <+: (K.object l).path := ⟨rest,by simp [← hpath]⟩
      have hrest : (current ++ [c]) ++ rest = (K.object l).path := by simp [← hpath]
      refine Simulation.Triple.step (Inspected P next) (hp.stable _) ?_ ?_
      · rintro d s q r d₁ hi ⟨rfl,hp₀⟩ henv
        cases henv with
        | exec he =>
            simp only [Disk.exec,Option.some.injEq,Prod.mk.injEq] at he
            obtain ⟨rfl,rfl⟩ := he
            have hdes := Disk.symlinkMetadata_described hi.tree.wf
              ((hi.tree.clearObject l hl).mono hpre)
            generalize d.symlinkMetadata (current ++ [c]) = r at hdes
            cases hdes with
            | dir | file | absent =>
                exact ⟨none,s,_,.silent,by simp [simulation],hi,Guar.refl i d s,rfl,hp₀⟩
            | through q t ino hq ht hne hf =>
                have hlax : K.lax := by
                  by_contra hx
                  exact hi.proper_clear hK hl hx hpre hq ht ino hf
                obtain ⟨mark,ha,hs⟩ := advance_failed hlax _ (.io .notADirectory) next
                exact ⟨mark,s,_,ha,hs,hi,Guar.refl i d s,rfl,hp₀⟩
        | fault hf hr =>
            obtain rfl := Option.some.inj hr
            obtain ⟨mark,ha,hs⟩ := advance_failed (hK.reliable hf) _ (.io .other) next
            exact ⟨mark,s,_,ha,hs,hi,Guar.refl i d s,rfl,hp₀⟩
      · rintro (e | t)
        · cases e with
          | notFound => exact done_piece (P := fun _ => P) ()
          | _ => exact failed_piece _
        · cases t with
          | symlink => exact fun _ _ _ _ h => h.elim
          | _ => exact ih hrest

end Checks

section Directories

def Idle (K : Setting) (i : ℕ) (l : Location) (made : Prop) : Fact :=
  fun d s => Free i d s ∧ (made → IsDir (K.dir l) d s)

theorem keeps_idle (made : Prop) : Keeps K i (Idle K i l made) :=
  (keeps_free i).and (keeps_isDir _).imp

theorem Idle.step {made : Prop} {d d₁ : Disk} {s : Ideal.State} (h : Idle K i l made d s)
    (hg : Guar K i d s d₁ s) (hlocks : d₁.locks = d.locks) : Idle K i l made d₁ s := by
  refine ⟨?_,fun hm => hg.dirs _ (h.2 hm)⟩
  intro ino mode
  rw [hlocks]
  exact h.1 ino mode

def Allowed (K : Setting) (l : Location) (p : Path) : Prop :=
  p <+: K.dir l ∨ p <+: K.root ++ [lockDir]

theorem Allowed.clear {d : Disk} {s : Ideal.State} {p : Path} (h : Allowed K l p) (hi : Inv K d s)
    (hl : K.sites l) : d.Clear p := by
  rcases h with h | h
  · exact (hi.tree.clearObject l hl).mono (h.trans (Setting.dir_prefix l))
  · refine (hi.tree.clearLock l hl).mono (h.trans ?_)
    rw [Setting.lock_split]
    exact List.prefix_append ..

theorem Allowed.not_file {d : Disk} {s : Ideal.State} {p q : Path} (h : Allowed K l p)
    (hi : Inv K d s) (hl : K.sites l) (hlax : ¬ K.lax) (hq : q <+: p) (ino : ℕ) :
    d.node q ≠ some (.file ino) := by
  intro hf
  obtain ⟨hne,hf⟩ := Disk.node_file.mp hf
  rcases h with h | h
  · exact hi.tree.dirs hlax l q ino hl (hq.trans h) hf
  · have := hi.tree.wf.prefix_dir hi.tree.locksDir (hq.trans h)
    rw [Disk.node_of_ne hne,hf] at this
    simp at this

-- What is known after `mkdir`: the directory is there, an ancestor is missing, or something else
-- is in the way.
def MadeDir (K : Setting) (i : ℕ) (l : Location) (made : Prop) (p : Path) :
    Except IoError Unit → Fact
  | .ok _ => fun d s => Idle K i l made d s ∧ IsDir p d s
  | .error .notFound => fun d s => Idle K i l made d s
  | .error _ => fun d s => Idle K i l made d s ∧ (¬ K.lax → IsDir p d s)

theorem mkdir_outcome (hK : K.Sound) (hl : K.sites l) {made : Prop} {p : Path}
    (hp : Allowed K l p) {d d₁ : Disk} {s : Ideal.State} {r : Except IoError Unit} (hi : Inv K d s)
    (hidle : Idle K i l made d s) (henv : Env K.faults d ⟨i,.mkdir p,r⟩ d₁) :
    Inv K d₁ s ∧ Guar K i d s d₁ s ∧ MadeDir K i l made p r d₁ s ∧
      (r = .error .notFound → p ≠ [] ∧ d.node p.dropLast ≠ some .dir) := by
  cases henv with
  | fault hf hr =>
      obtain rfl := Option.some.inj hr
      exact ⟨hi,Guar.refl i d s,⟨hidle,fun hx => absurd (hK.reliable hf) hx⟩,by simp⟩
  | exec he =>
      simp only [Disk.exec,Option.some.injEq] at he
      have hmade := Disk.mkdir_made hi.tree.wf (hp.clear hi hl)
      rw [he] at hmade
      cases hmade with
      | made q c hs hnone habove =>
          subst hs
          have hpre : q ++ [c] <+: K.dir l := by
            refine hp.resolve_right (fun hpre => ?_)
            have := hi.tree.wf.prefix_dir hi.tree.locksDir hpre
            rw [Disk.node_snoc,hnone] at this
            simp at this
          obtain ⟨hi₁,hg⟩ := mkdir_step hK hi hl hpre hnone habove i
          refine ⟨hi₁,hg,⟨hidle.step hg rfl,?_⟩,by simp⟩
          simp [IsDir,Disk.set]
      | present hne =>
          refine ⟨hi,Guar.refl i d s,⟨hidle,fun hx => ?_⟩,by simp⟩
          cases hn : d.node p with
          | none => exact absurd hn hne
          | some n =>
              cases n with
              | dir => exact hn
              | file ino => exact absurd hn (hp.not_file hi hl hx (List.prefix_refl p) ino)
              | link t =>
                  have hp₀ : p ≠ [] := by
                    rintro rfl
                    simp at hn
                  rw [Disk.node_of_ne hp₀] at hn
                  exact absurd hn (hp.clear hi hl p (List.prefix_refl p) t)
      | missing q t hs ht hq hgone =>
          refine ⟨hi,Guar.refl i d s,hidle,fun _ => ⟨by simp [hs,hq],?_⟩⟩
          rw [hs,List.dropLast_append_of_ne_nil ht]
          intro hdir
          have := hi.tree.wf.prefix_dir hdir (List.prefix_append q _)
          rw [Disk.node_of_ne hq,hgone] at this
          simp at this
      | through q t ino hs ht hq hf =>
          refine ⟨hi,Guar.refl i d s,⟨hidle,fun hx => ?_⟩,by simp⟩
          refine absurd (Disk.node_file.mpr ⟨hq,hf⟩) (hp.not_file hi hl hx ?_ ino)
          exact ⟨t,hs.symm⟩

theorem orExisting_piece (hK : K.Sound) (hl : K.sites l) {made : Prop} {p : Path}
    (hp : Allowed K l p) (error : IoError) :
    (simulation K).Triple i (orExisting p error)
      (At (fun d s => Idle K i l made d s ∧ (¬ K.lax → IsDir p d s)) (.perform (.store rq) next))
      (fun r => Piece next (fun _ d s => Idle K i l made d s ∧ IsDir p d s) (Idle K i l made)
        (r.mapError .io)) := by
  refine Simulation.Triple.step (fun r => if r then
      At (fun d s => Idle K i l made d s ∧ IsDir p d s) (.perform (.store rq) next)
    else At (Idle K i l made) (next (rq.failed (.io error))))
    (((keeps_idle made).and (keeps_isDir p).imp).stable _) ?_ ?_
  · rintro d s q r d₁ hi ⟨rfl,hidle,hdir⟩ henv
    cases henv with
    | fault hf hr =>
        obtain rfl := Option.some.inj hr
        obtain ⟨mark,ha,hs⟩ := advance_failed (hK.reliable hf) _ (.io error) next
        exact ⟨mark,s,_,ha,hs,hi,Guar.refl i d s,rfl,hidle⟩
    | exec he =>
        simp only [Disk.exec,Option.some.injEq,Prod.mk.injEq] at he
        obtain ⟨rfl,rfl⟩ := he
        have hiff := Disk.isDir_iff hi.tree.wf (hp.clear hi hl)
        cases hb : d.isDir p with
        | true =>
            exact ⟨none,s,_,.silent,by simp [simulation],hi,Guar.refl i d s,rfl,hidle,hiff.mp hb⟩
        | false =>
            have hlax : K.lax := by
              by_contra hx
              rw [hiff.mpr (hdir hx)] at hb
              simp at hb
            obtain ⟨mark,ha,hs⟩ := advance_failed hlax _ (.io error) next
            exact ⟨mark,s,_,ha,hs,hi,Guar.refl i d s,rfl,hidle⟩
  · intro b
    cases b with
    | true => exact fun _ _ _ _ h => h
    | false => exact fun _ _ _ _ h => h

theorem MadeDir.blocked {made : Prop} {p : Path} {e : IoError} {d : Disk} {s : Ideal.State}
    (h : MadeDir K i l made p (.error e) d s) (he : e ≠ .notFound) :
    Idle K i l made d s ∧ (¬ K.lax → IsDir p d s) := by
  cases e with
  | notFound => exact absurd rfl he
  | _ => exact h

theorem mkdirLast_piece (hK : K.Sound) (hl : K.sites l) {made : Prop} {p : Path} {P : Fact}
    (hp : Allowed K l p) (hkeep : Keeps K i P)
    (hpre : ∀ d s, P d s → Idle K i l made d s ∧ (p = [] ∨ d.node p.dropLast = some .dir))
    {rest : Except IoError Unit → Fs (Except IoError Unit)} (hok : rest (.ok ()) = .done (.ok ()))
    (herr : ∀ e, e ≠ .notFound → rest (.error e) = orExisting p e) :
    (simulation K).Triple i (.perform (.mkdir p) rest) (At P (.perform (.store rq) next))
      (fun r => Piece next (fun _ d s => Idle K i l made d s ∧ IsDir p d s) (Idle K i l made)
        (r.mapError .io)) := by
  refine Simulation.Triple.step (fun r => At (fun d s => MadeDir K i l made p r d s ∧
    r ≠ .error .notFound) (.perform (.store rq) next)) (hkeep.stable _) ?_ ?_
  · rintro d s q r d₁ hi ⟨rfl,hP⟩ henv
    obtain ⟨hidle,habove⟩ := hpre d s hP
    obtain ⟨hi₁,hg,hm,hmiss⟩ := mkdir_outcome hK hl hp hi hidle henv
    refine ⟨none,s,_,.silent,by simp [simulation],hi₁,hg,rfl,hm,?_⟩
    intro hr
    obtain ⟨hne,hnot⟩ := hmiss hr
    rcases habove with rfl | habove
    · exact hne rfl
    · exact hnot habove
  · intro r
    cases r with
    | ok u =>
        rw [hok]
        exact fun _ _ _ _ h => ⟨h.1,h.2.1⟩
    | error e =>
        by_cases he : e = .notFound
        · subst he
          exact Simulation.Triple.vacuous (fun _ _ _ h => absurd rfl h.2.2)
        · rw [herr e he]
          exact (orExisting_piece hK hl hp e).pre (fun _ _ _ _ h => ⟨h.1,h.2.1.blocked he⟩)

theorem createDirAllUp_piece (hK : K.Sound) (hl : K.sites l) {made : Prop} {up : List String}
    (hp : Allowed K l up.reverse) :
    (simulation K).Triple i (createDirAllUp up) (At (Idle K i l made) (.perform (.store rq) next))
      (fun r => Piece next (fun _ d s => Idle K i l made d s ∧ IsDir up.reverse d s)
        (Idle K i l made) (r.mapError .io)) := by
  induction up with
  | nil =>
      refine mkdirLast_piece hK hl hp (keeps_idle made) (fun d s h => ⟨h,.inl rfl⟩) rfl ?_
      intro e he
      cases e <;> first | exact absurd rfl he | rfl
  | cons c up ih =>
      have hsplit : (c :: up).reverse = up.reverse ++ [c] := by simp
      have hup : Allowed K l up.reverse := by
        rw [hsplit] at hp
        exact hp.imp (fun h => (List.prefix_append ..).trans h)
          (fun h => (List.prefix_append ..).trans h)
      refine Simulation.Triple.step (fun r => At (MadeDir K i l made (c :: up).reverse r)
        (.perform (.store rq) next)) ((keeps_idle made).stable _) ?_ ?_
      · rintro d s q r d₁ hi ⟨rfl,hidle⟩ henv
        obtain ⟨hi₁,hg,hm,-⟩ := mkdir_outcome hK hl hp hi hidle henv
        exact ⟨none,s,_,.silent,by simp [simulation],hi₁,hg,rfl,hm⟩
      · intro r
        match r with
        | .ok _ => exact fun _ _ _ _ h => h
        | .error .notFound =>
            refine (ih hup).bind (fun parents => ?_)
            cases parents with
            | error e => exact fun _ _ _ _ h => h
            | ok u =>
                refine mkdirLast_piece hK hl hp ((keeps_idle made).and (keeps_isDir _)) ?_ rfl
                  (fun _ _ => rfl)
                intro d s h
                refine ⟨h.1,.inr ?_⟩
                rw [hsplit,List.dropLast_concat]
                exact h.2
        | .error .alreadyExists | .error .notADirectory | .error .isADirectory
        | .error .filesystemLoop | .error .other => exact orExisting_piece hK hl hp _

theorem createDirAll_piece (hK : K.Sound) (hl : K.sites l) {made : Prop} {p : Path}
    (hp : Allowed K l p) :
    (simulation K).Triple i (io (createDirAll p)).run
      (At (Idle K i l made) (.perform (.store rq) next))
      (Piece next (fun _ d s => Idle K i l made d s ∧ IsDir p d s) (Idle K i l made)) := by
  have hp' : Allowed K l p.reverse.reverse := by rwa [List.reverse_reverse]
  refine (createDirAllUp_piece hK hl hp').map (fun r _ _ _ _ h => ?_)
  rwa [List.reverse_reverse] at h

end Directories

end Filesystem

end Objsds
