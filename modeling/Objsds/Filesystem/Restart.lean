import Objsds.Filesystem.Sanity

namespace Objsds

open Foundation FilesystemStore

namespace Filesystem

variable {α β ε ε' : Type}

def runAlone (i : ℕ) : Fs α → Disk → Option (α × Disk)
  | .done a, d => some (a,d)
  | .perform e next, d => (d.exec i e).bind (fun x => runAlone i (next x.1) x.2)

section Rules

variable {i : ℕ} {d d₁ : Disk} {y : β × Disk}

theorem runAlone_bind {p : Fs α} {f : α → Fs β} {a : α} (hp : runAlone i p d = some (a,d₁))
    (hf : runAlone i (f a) d₁ = some y) : runAlone i (p >>= f) d = some y := by
  induction p generalizing d with
  | done b =>
      obtain ⟨rfl,rfl⟩ := Prod.mk.inj (Option.some.inj hp)
      exact hf
  | perform e next ih =>
      obtain ⟨x,hx,hn⟩ := Option.bind_eq_some_iff.mp hp
      exact Option.bind_eq_some_iff.mpr ⟨x,hx,ih x.1 hn⟩

theorem runAlone_perform {e : Sys} {next : SysReply e → Fs β} {r : SysReply e}
    (he : d.exec i e = some (r,d₁)) (hn : runAlone i (next r) d₁ = some y) :
    runAlone i (.perform e next) d = some y :=
  Option.bind_eq_some_iff.mpr ⟨(r,d₁),he,hn⟩

theorem runAlone_bindExcept {x : FsResult ε α} {f : α → FsResult ε β} {a : α}
    {z : Except ε β × Disk} (hx : runAlone i x.run d = some (.ok a,d₁))
    (hf : runAlone i (f a).run d₁ = some z) : runAlone i (x >>= f).run d = some z := by
  rw [ExceptT.run_bind]
  exact runAlone_bind hx hf

theorem runAlone_io {p : Fs (Except IoError α)} {a : α} (hp : runAlone i p d = some (.ok a,d₁)) :
    runAlone i (io p).run d = some (.ok a,d₁) := by
  change runAlone i (Except.mapError StoreError.io <$> p) d = _
  rw [map_eq_pure_bind]
  exact runAlone_bind hp rfl

theorem runAlone_adapt {x : FsResult ε α} (wrap : ε → ε') {a : α}
    (hx : runAlone i x.run d = some (.ok a,d₁)) :
    runAlone i (ExceptT.adapt wrap x).run d = some (.ok a,d₁) := by
  change runAlone i (Except.mapError wrap <$> x.run) d = _
  rw [map_eq_pure_bind]
  exact runAlone_bind hx rfl

theorem runAlone_request {e : Sys} {r : SysReply e} (he : d.exec i e = some (r,d₁)) :
    runAlone i (Program.request e) d = some (r,d₁) :=
  runAlone_perform he rfl

end Rules

section Directories

structure Extended (p : Path) (d d' : Disk) : Prop where
  wf : d'.Wf
  entries : ∀ q, d'.entries q = d.entries q ∨
    (q <+: p ∧ d.entries q = none ∧ d'.entries q = some .dir)
  data : d'.data = d.data
  locks : d'.locks = d.locks
  next : d'.next = d.next

theorem Extended.refl {d : Disk} (h : d.Wf) (p : Path) : Extended p d d :=
  ⟨h,fun _ => .inl rfl,rfl,rfl,rfl⟩

theorem Extended.mono {p p' : Path} {d d' : Disk} (h : Extended p d d') (hp : p <+: p') :
    Extended p' d d' := by
  refine ⟨h.wf,fun q => ?_,h.data,h.locks,h.next⟩
  rcases h.entries q with hq | ⟨hq,hn⟩
  · exact .inl hq
  · exact .inr ⟨hq.trans hp,hn⟩

theorem Extended.trans {p : Path} {d d' d'' : Disk} (h : Extended p d d') (h' : Extended p d' d'') :
    Extended p d d'' := by
  refine ⟨h'.wf,fun q => ?_,h'.data.trans h.data,h'.locks.trans h.locks,h'.next.trans h.next⟩
  rcases h.entries q with hq | ⟨hq,hn,hd⟩
  · rw [← hq]
    exact h'.entries q
  · rcases h'.entries q with hq' | ⟨-,hn',-⟩
    · exact .inr ⟨hq,hn,hq'.trans hd⟩
    · rw [hd] at hn'
      simp at hn'

structure Passable (d : Disk) (p : Path) : Prop where
  wf : d.Wf
  clear : d.Clear p
  files : ∀ q, q ≠ [] → q <+: p → ∀ ino, d.entries q ≠ some (.file ino)

theorem Passable.mono {d : Disk} {p q : Path} (h : Passable d p) (hq : q <+: p) : Passable d q :=
  ⟨h.wf,h.clear.mono hq,fun x hx hxq => h.files x hx (hxq.trans hq)⟩

theorem Passable.extend {d d' : Disk} {p q : Path} (h : Passable d p) (he : Extended q d d') :
    Passable d' p := by
  refine ⟨he.wf,fun x hx t ht => ?_,fun x hx hxp ino hf => ?_⟩
  · rcases he.entries x with heq | ⟨-,-,hd⟩
    · exact h.clear x hx t (heq ▸ ht)
    · rw [hd] at ht
      simp at ht
  · rcases he.entries x with heq | ⟨-,-,hd⟩
    · exact h.files x hx hxp ino (heq ▸ hf)
    · rw [hd] at hf
      simp at hf

theorem Passable.node {d : Disk} {p : Path} (h : Passable d p) (hp : d.node p ≠ none) :
    d.node p = some .dir := by
  by_cases hne : p = []
  · subst hne
    rfl
  · rw [Disk.node_of_ne hne] at hp ⊢
    cases hn : d.entries p with
    | none => exact absurd hn hp
    | some n =>
        cases n with
        | dir => rfl
        | file ino => exact absurd hn (h.files p hne (List.prefix_refl p) ino)
        | link t => exact absurd hn (h.clear p (List.prefix_refl p) t)

variable {i : ℕ} {d : Disk}

theorem orExisting_alone {p : Path} (h : Passable d p) (hp : d.node p = some .dir) (e : IoError) :
    runAlone i (orExisting p e) d = some (.ok (),d) := by
  have hdir : d.isDir p = true := (Disk.isDir_iff h.wf h.clear).mpr hp
  have hexec : d.exec i (.isDir p) = some (true,d) := by simp [Disk.exec,hdir]
  exact runAlone_perform hexec rfl

theorem createDirAllUp_alone {up : List String} (h : Passable d up.reverse) :
    ∃ d', runAlone i (createDirAllUp up) d = some (.ok (),d') ∧ Extended up.reverse d d' ∧
      d'.node up.reverse = some .dir := by
  induction up generalizing d with
  | nil =>
      refine ⟨d,?_,.refl h.wf _,rfl⟩
      have hexec : d.exec i (.mkdir []) = some (.error .alreadyExists,d) := by
        simp [Disk.exec,Disk.mkdir,Disk.locate]
      exact runAlone_perform hexec (orExisting_alone h rfl _)
  | cons c up ih =>
      have hmade := Disk.mkdir_made h.wf h.clear
      have hexec : ∀ d : Disk, d.exec i (.mkdir (c :: up).reverse) =
          some (d.mkdir (c :: up).reverse) := fun _ => rfl
      have hexec₀ := hexec d
      generalize d.mkdir (c :: up).reverse = x at hmade hexec₀
      cases hmade with
      | made q c' hs habsent habove =>
          refine ⟨_,runAlone_perform hexec₀ rfl,?_,?_⟩
          · refine ⟨?_,fun q' => ?_,rfl,rfl,rfl⟩
            · refine Disk.wf_update h.wf rfl (by simp) (fun _ => ?_) ?_
              · rw [hs]
                simpa using habove
              · rw [Disk.node_of_ne (by simp),habsent]
                simp
            · by_cases hq : q' = (c :: up).reverse
              · subst hq
                exact .inr ⟨List.prefix_refl _,habsent,by simp [Disk.set]⟩
              · exact .inl (by simp only [Disk.set,Function.update_of_ne hq])
          · rw [Disk.node_of_ne (by simp)]
            simp [Disk.set]
      | present hexist =>
          have hdir := h.node hexist
          exact ⟨d,runAlone_perform hexec₀ (orExisting_alone h hdir _),.refl h.wf _,hdir⟩
      | through q s ino hs hne hq hf =>
          exact absurd hf (h.files q hq ⟨s,hs.symm⟩ ino)
      | missing q s hs hne hq hgone =>
          have hpre : up.reverse <+: (c :: up).reverse := by simp
          obtain ⟨d₁,hrun,hext,hdir⟩ := ih (h.mono hpre)
          have habsent : d₁.entries (c :: up).reverse = none := by
            have hnone : d.entries (c :: up).reverse = none := by
              rw [hs]
              exact h.wf.under_none hne hgone hq
            rcases hext.entries (c :: up).reverse with he | ⟨hp,-,-⟩
            · rw [he,hnone]
            · have := hp.length_le
              simp only [List.length_reverse,List.length_cons] at this
              omega
          have h₁ := h.extend hext
          have hlocate : d₁.locate (c :: up).reverse = .ok (c :: up).reverse := by
            rw [List.reverse_cons]
            exact Disk.locate_child h₁.wf c (h₁.clear.mono hpre) hdir
          have hmk : d₁.mkdir (c :: up).reverse =
              (.ok (),d₁.set (c :: up).reverse (some .dir)) := by
            simp only [Disk.mkdir,hlocate,Disk.node_of_ne (p := (c :: up).reverse) (by simp),habsent]
          refine ⟨d₁.set (c :: up).reverse (some .dir),?_,?_,?_⟩
          · refine runAlone_perform hexec₀ ?_
            change runAlone i (createDirAllUp up >>= _) d = _
            refine runAlone_bind hrun ?_
            exact runAlone_perform ((hexec d₁).trans (congrArg some hmk)) rfl
          · refine (hext.mono hpre).trans ⟨?_,fun q' => ?_,rfl,rfl,rfl⟩
            · refine Disk.wf_update h₁.wf rfl (by simp) (fun _ => ?_) ?_
              · rw [List.reverse_cons,List.dropLast_concat]
                exact hdir
              · rw [Disk.node_of_ne (by simp),habsent]
                simp
            · by_cases hq' : q' = (c :: up).reverse
              · subst hq'
                exact .inr ⟨List.prefix_refl _,habsent,by simp [Disk.set]⟩
              · exact .inl (by simp only [Disk.set,Function.update_of_ne hq'])
          · rw [Disk.node_of_ne (by simp)]
            simp [Disk.set]

theorem createDirAll_alone {p : Path} (h : Passable d p) :
    ∃ d', runAlone i (createDirAll p) d = some (.ok (),d') ∧ Extended p d d' ∧
      d'.node p = some .dir := by
  have hup : Passable d p.reverse.reverse := by rwa [List.reverse_reverse]
  have := createDirAllUp_alone (i := i) hup
  rwa [List.reverse_reverse] at this

end Directories

section Reading

def Stands (d : Disk) (l : Location) : Option Object → Option Node → Prop
  | none, n => n = none
  | some o, n => dirOnly l.asStr = false ∧ ∃ ino, n = some (.file ino) ∧ decode (d.data ino) = .ok o

-- A disk on which the location can be read: no call is under way and nothing bars the path.
structure Legible (K : Setting) (l : Location) (o : Option Object) (d : Disk) : Prop where
  dir : Passable d (K.dir l)
  locks : Passable d (K.root ++ [lockDir])
  clearObject : d.Clear (K.object l).path
  clearLock : d.Clear (K.lock l)
  lock : d.entries (K.lock l) ≠ some .dir
  free : ∀ ino, d.locks ino = []
  bounded : ∀ ino, d.entries (K.object l).path = some (.file ino) → ino < d.next
  stands : Stands d l o (d.entries (K.object l).path)

variable {K : Setting} {l : Location} {o : Option Object} {d d₁ : Disk} {i : ℕ}

theorem Stands.congr {n : Option Node} (h : Stands d l o n)
    (hd : ∀ ino, n = some (.file ino) → d₁.data ino = d.data ino) : Stands d₁ l o n := by
  cases o with
  | none => exact h
  | some o =>
      obtain ⟨hplain,ino,hn,hdec⟩ := h
      exact ⟨hplain,ino,hn,by rw [hd ino hn,hdec]⟩

-- A location that is neither the directory of the locks nor one of them.
structure Setting.Regular (K : Setting) (l : Location) : Prop where
  accepted : accepted l.asStr = true
  notLocks : (K.object l).path ≠ K.root ++ [lockDir]
  notLock : (K.object l).path ≠ K.lock l
  lockApart : ¬ K.lock l <+: K.dir l

theorem Setting.Regular.outside (h : K.Regular l) : ¬ (K.object l).path <+: K.root ++ [lockDir] := by
  intro hp
  obtain ⟨name,hname,-⟩ := Setting.object_split (K := K) h.accepted
  refine h.notLocks (hp.eq_of_length_le ?_)
  have hr := (Setting.root_prefix K l).length_le
  simp only [hname,List.length_append,List.length_singleton]
  omega

theorem Setting.lock_outside (K : Setting) (l : Location) : ¬ K.lock l <+: K.root ++ [lockDir] := by
  intro h
  have := h.length_le
  simp [Setting.lock,lockPath] at this

theorem Extended.entry {p q : Path} (h : Extended p d d₁) (hq : ¬ q <+: p) :
    d₁.entries q = d.entries q := by
  rcases h.entries q with he | ⟨hp,-⟩
  · exact he
  · exact absurd hp hq

theorem Extended.clear {p q : Path} (h : Extended p d d₁) (hc : d.Clear q) : d₁.Clear q := by
  intro x hx t ht
  rcases h.entries x with he | ⟨-,-,hd⟩
  · exact hc x hx t (he ▸ ht)
  · rw [hd] at ht
    simp at ht

theorem Legible.extend (hr : K.Regular l) (h : Legible K l o d)
    (he : Extended (K.root ++ [lockDir]) d d₁) : Legible K l o d₁ where
  dir := h.dir.extend he
  locks := h.locks.extend he
  clearObject := he.clear h.clearObject
  clearLock := he.clear h.clearLock
  lock := by
    rw [he.entry (Setting.lock_outside K l)]
    exact h.lock
  free := by
    rw [he.locks]
    exact h.free
  bounded := by
    rw [he.entry hr.outside,he.next]
    exact h.bounded
  stands := by
    rw [he.entry hr.outside]
    exact h.stands.congr (fun ino _ => by rw [he.data])

theorem Legible.createLocks (hr : K.Regular l) (h : Legible K l o d) :
    ∃ d', runAlone i (createDirAll (K.root ++ [lockDir])) d = some (.ok (),d') ∧
      Legible K l o d' ∧ d'.node (K.root ++ [lockDir]) = some .dir := by
  obtain ⟨d',hrun,he,hdir⟩ := createDirAll_alone (i := i) h.locks
  exact ⟨d',hrun,h.extend hr he,hdir⟩

theorem prefix_of_split {p q s : Path} {c : String} (h : p ++ [c] = q ++ s) (hs : s ≠ []) :
    q <+: p := by
  rcases List.eq_nil_or_concat s with rfl | ⟨t,x,rfl⟩
  · exact absurd rfl hs
  · rw [List.concat_eq_append,← List.append_assoc] at h
    exact ⟨t,(List.append_inj' h rfl).1.symm⟩

theorem reject_alone {current : Path} {rest : List String} (hw : d.Wf)
    (hc : d.Clear (current ++ rest))
    (hf : ∀ q s, current ++ rest = q ++ s → s ≠ [] → q ≠ [] → ∀ ino, d.entries q ≠ some (.file ino)) :
    runAlone i (rejectExistingSymlinks current rest) d = some (.ok (),d) := by
  induction rest generalizing current with
  | nil => rfl
  | cons c rest ih =>
      have hcons : current ++ c :: rest = (current ++ [c]) ++ rest := by simp
      have hrest : runAlone i (rejectExistingSymlinks (current ++ [c]) rest) d =
          some (.ok (),d) := by
        rw [hcons] at hc hf
        exact ih hc hf
      have hdes := Disk.symlinkMetadata_described (p := current ++ [c]) hw
        (hc.mono ⟨rest,hcons.symm⟩)
      have hexec : d.exec i (.symlinkMetadata (current ++ [c])) =
          some (d.symlinkMetadata (current ++ [c]),d) := rfl
      generalize d.symlinkMetadata (current ++ [c]) = r at hdes hexec
      cases hdes with
      | dir | file => exact runAlone_perform hexec hrest
      | absent => exact runAlone_perform hexec rfl
      | through q s ino hs hne hq hfile =>
          exact absurd hfile (hf q (s ++ rest) (by rw [hcons,hs,List.append_assoc]) (by simp [hne]) hq
            ino)

theorem Legible.reject (hacc : accepted l.asStr = true) (h : Legible K l o d) :
    runAlone i (rejectExistingSymlinks K.root (names l.asStr)) d = some (.ok (),d) := by
  refine reject_alone h.dir.wf h.clearObject (fun q s hs hne hq ino => ?_)
  obtain ⟨name,hname,-⟩ := Setting.object_split (K := K) hacc
  refine h.dir.files q hq ?_ ino
  rw [← Setting.object_path,hname] at hs
  exact prefix_of_split hs hne

theorem Legible.openLock (hr : K.Regular l) (h : Legible K l o d)
    (hdir : d.node (K.root ++ [lockDir]) = some .dir) :
    ∃ ino d', d.exec i (.openLock (K.lock l)) = some (.ok ino,d') ∧ Legible K l o d' := by
  have hne : K.lock l ≠ [] := by simp [Setting.lock_split]
  have hres : d.resolve (K.lock l) = .ok (K.lock l) := by
    have hclear := h.clearLock
    rw [Setting.lock_split] at hclear ⊢
    exact Disk.resolve_child h.dir.wf hclear hdir
  simp only [Disk.exec,Disk.openLock,hres,Disk.node_of_ne hne]
  cases hn : d.entries (K.lock l) with
  | some n =>
      cases n with
      | file ino => exact ⟨ino,d,rfl,h⟩
      | dir => exact absurd hn h.lock
      | link t => exact absurd hn (h.clearLock _ (List.prefix_refl _) t)
  | none =>
      have hentry : ∀ q, q ≠ K.lock l → (d.newFile i (K.lock l)).entries q = d.entries q := by
        intro q hq
        simp [Disk.newFile,Disk.set,hq]
      have hnew : (d.newFile i (K.lock l)).entries (K.lock l) = some (.file d.next) := by
        simp [Disk.newFile,Disk.set]
      have hwf : (d.newFile i (K.lock l)).Wf := by
        refine Disk.wf_update h.dir.wf rfl hne (fun _ => ?_) ?_
        · rw [Setting.lock_split,List.dropLast_concat]
          exact hdir
        · rw [Disk.node_of_ne hne,hn]
          simp
      have hclear : ∀ p, d.Clear p → (d.newFile i (K.lock l)).Clear p := by
        intro p hp q hq t ht
        by_cases hql : q = K.lock l
        · rw [hql,hnew] at ht
          simp at ht
        · exact hp q hq t (hentry q hql ▸ ht)
      have hpass : ∀ p, ¬ K.lock l <+: p → Passable d p → Passable (d.newFile i (K.lock l)) p := by
        intro p hp hpass
        refine ⟨hwf,hclear p hpass.clear,fun q hq hqp ino => ?_⟩
        rw [hentry q (fun he => hp (he ▸ hqp))]
        exact hpass.files q hq hqp ino
      refine ⟨d.next,_,rfl,hpass _ hr.lockApart h.dir,hpass _ (Setting.lock_outside K l) h.locks,
        hclear _ h.clearObject,hclear _ h.clearLock,by simp [hnew],h.free,?_,?_⟩
      · intro ino hf
        rw [hentry _ hr.notLock] at hf
        exact Nat.lt_succ_of_lt (h.bounded ino hf)
      · rw [hentry _ hr.notLock]
        exact h.stands.congr (fun ino hf => (d.newFile_data i _ (h.bounded ino hf)).1)

theorem Legible.scan (h : Legible K l o d) (hacc : accepted l.asStr = true) :
    scan (d.read (K.object l)) = .ok o := by
  have hscan := Disk.read_scanned h.dir.wf h.clearObject
  have hstands := h.stands
  generalize d.read (K.object l) = r at hscan
  cases hscan with
  | file ino hf hplain =>
      rw [hf] at hstands
      cases o with
      | none => simp [Stands] at hstands
      | some o =>
          obtain ⟨-,k,hk,hdec⟩ := hstands
          obtain rfl := Node.file.inj (Option.some.inj hk)
          simp [Filesystem.scan,hdec,Except.map]
  | slash ino hf hslash =>
      rw [hf] at hstands
      cases o with
      | none => simp [Stands] at hstands
      | some o =>
          have hplain : (K.object l).dirOnly = false := hstands.1
          simp [hplain] at hslash
  | dir hdir =>
      rw [Disk.node_of_ne (Setting.object_ne_nil (K := K) hacc)] at hdir
      rw [hdir] at hstands
      cases o <;> simp [Stands] at hstands
  | absent hgone =>
      rw [hgone] at hstands
      cases o with
      | none => rfl
      | some o => simp [Stands] at hstands
  | through q s ino hs hne hq hf hgone =>
      obtain ⟨name,hname,-⟩ := Setting.object_split (K := K) hacc
      refine absurd hf (h.dir.files q hq ?_ ino)
      rw [hname] at hs
      exact prefix_of_split hs hne

theorem Legible.get (hr : K.Regular l) (h : Legible K l o d) :
    ∃ d', runAlone i (FilesystemStore.get ⟨K.root⟩ l) d = some (.ok o,d') := by
  obtain ⟨d₁,hmade,h₁,hdir⟩ := h.createLocks (i := i) hr
  obtain ⟨ino,d₂,hopen,h₂⟩ := h₁.openLock (i := i) hr hdir
  have hgrant : d₂.exec i (.lock ino .shared) = some (.ok (),d₂.lock i ino .shared) := by
    simp [Disk.exec,Disk.grantable,h₂.free]
  have hread : runAlone i (readPath (K.object l)) (d₂.lock i ino .shared) =
      some (.ok o,d₂.lock i ino .shared) := by
    rw [readPath_eq,map_eq_pure_bind]
    refine runAlone_bind (runAlone_request rfl) ?_
    exact congrArg (fun x => some (x,d₂.lock i ino .shared)) (h₂.scan hr.accepted)
  refine ⟨(d₂.lock i ino .shared).unlock i ino,?_⟩
  rw [FilesystemStore.get,objectPath_bind hr.accepted]
  refine runAlone_bindExcept (h.reject hr.accepted) ?_
  have hacquire : runAlone i (ObjectLock.acquire (lockPath K.root l) .shared).run d =
      some (.ok ino,d₂.lock i ino .shared) := by
    rw [← Setting.lock,ObjectLock.acquire,parentOf_lock]
    refine runAlone_bindExcept (runAlone_io hmade) ?_
    refine runAlone_bindExcept (runAlone_io (runAlone_request hopen)) ?_
    exact runAlone_bindExcept (runAlone_io (runAlone_request hgrant)) rfl
  refine runAlone_bindExcept hacquire ?_
  exact runAlone_bind hread (runAlone_perform rfl rfl)

def reopen (root : Path) (l : Location) :
    FsResult BuildError (Except StoreError (Option Object)) := do
  let store ← FilesystemStoreBuilder.build ⟨some root⟩
  ExceptT.lift (store.get l)

theorem Legible.reopen (hr : K.Regular l) (h : Legible K l o d) :
    ∃ d', runAlone i (reopen K.root l).run d = some (.ok (.ok o),d') := by
  have hroot : K.root <+: K.root ++ [lockDir] := List.prefix_append ..
  obtain ⟨d₁,hmade,he,hdir⟩ := createDirAll_alone (i := i) (h.locks.mono hroot)
  have h₁ := h.extend hr (he.mono hroot)
  have hclear : d₁.Clear K.root := h₁.locks.clear.mono hroot
  have hcanon : d₁.exec i (.canonicalize K.root) = some (.ok K.root,d₁) := by
    simp [Disk.exec,Disk.canonicalize,Disk.resolve_dir h₁.locks.wf hclear hdir,hdir]
  have hpresent : d₁.exec i (.isDir K.root) = some (true,d₁) := by
    simp [Disk.exec,(Disk.isDir_iff h₁.locks.wf hclear).mpr hdir]
  obtain ⟨d₂,hlocks,h₂,-⟩ := h₁.createLocks (i := i) hr
  have hbuild : runAlone i (FilesystemStoreBuilder.build ⟨some K.root⟩).run d =
      some (.ok ⟨K.root⟩,d₂) := by
    refine runAlone_bindExcept (runAlone_adapt BuildError.io hmade) ?_
    refine runAlone_bindExcept (runAlone_adapt BuildError.io (runAlone_request hcanon)) ?_
    have hlift : runAlone i (ExceptT.lift (Program.request (Sys.isDir K.root)) :
        FsResult BuildError Bool).run d₁ = some (.ok true,d₁) := runAlone_perform hpresent rfl
    refine runAlone_bindExcept hlift ?_
    exact runAlone_bindExcept (runAlone_adapt BuildError.io hlocks) rfl
  obtain ⟨d₃,hget⟩ := h₂.get (i := i) hr
  refine ⟨d₃,runAlone_bindExcept hbuild ?_⟩
  exact runAlone_bind hget rfl

end Reading

section Crashes

variable {K : Setting} {l : Location} {o : Option Object} {d d₂ : Disk} {p q : Path}

theorem mem_ancestors : q ∈ ancestors p ↔ q ≠ [] ∧ ∃ s, s ≠ [] ∧ p = q ++ s := by
  simp only [ancestors,List.mem_map,List.mem_range'_1]
  constructor
  · rintro ⟨k,⟨hk,hk'⟩,rfl⟩
    refine ⟨?_,p.drop k,?_,(List.take_append_drop k p).symm⟩
    · intro h
      have := congrArg List.length h
      simp only [List.length_take,List.length_nil] at this
      omega
    · intro h
      have := congrArg List.length h
      simp only [List.length_drop,List.length_nil] at this
      omega
  · rintro ⟨hq,s,hs,rfl⟩
    have hlq := List.length_pos_iff.mpr hq
    have hls := List.length_pos_iff.mpr hs
    refine ⟨q.length,⟨hlq,?_⟩,by simp⟩
    simp only [List.length_append]
    omega

-- What a crash may leave of an entry.
theorem Crash.entry (h : Crash d d₂) (p : Path) :
    d₂.entries p = none ∨ (d₂.entries p ∈ d.kept p ∧ ∀ q ∈ ancestors p, d₂.entries q = some .dir) := by
  cases h with
  | crash choice scrambled kept =>
      by_cases hp : ∀ q ∈ ancestors p, choice q = some .dir
      · refine .inr ⟨?_,fun q hq => ?_⟩
        · simpa only [Disk.crash,if_pos hp] using kept p
        · have habove : ∀ x ∈ ancestors q, choice x = some .dir := by
            intro x hx
            obtain ⟨hxne,s,hs,rfl⟩ := mem_ancestors.mp hx
            obtain ⟨-,t,ht,rfl⟩ := mem_ancestors.mp hq
            refine hp x (mem_ancestors.mpr ⟨hxne,s ++ t,by simp [hs],by simp⟩)
          simp only [Disk.crash,if_pos habove,hp q hq]
      · exact .inl (by simp only [Disk.crash,if_neg hp])

theorem Crash.wf (h : Crash d d₂) : d₂.Wf := by
  intro p c hp
  rcases h.entry (p ++ [c]) with hnone | ⟨-,hdirs⟩
  · exact absurd hnone hp
  · by_cases hne : p = []
    · subst hne
      rfl
    · rw [Disk.node_of_ne hne]
      exact hdirs p (mem_ancestors.mpr ⟨hne,[c],by simp,rfl⟩)

theorem Crash.kept (h : Crash d d₂) {n : Node} (hp : d₂.entries p = some n) :
    some n ∈ d.kept p := by
  rcases h.entry p with hnone | ⟨hk,-⟩
  · rw [hnone] at hp
    simp at hp
  · rwa [hp] at hk

theorem Crash.locks (h : Crash d d₂) (ino : ℕ) : d₂.locks ino = [] := by
  cases h with
  | crash => rfl

theorem Crash.next (h : Crash d d₂) : d₂.next = d.next := by
  cases h with
  | crash => rfl

theorem Crash.data (h : Crash d d₂) {ino : ℕ} (hs : d.synced ino = true) :
    d₂.data ino = d.data ino := by
  cases h with
  | crash => simp [Disk.crash,hs]

theorem Sane.legible (hs : Sane K d) (hl : K.sites l) (hw : d₂.Wf)
    (hk : ∀ {p n}, d₂.entries p = some n → some n ∈ d.kept p) (hfree : ∀ ino, d₂.locks ino = [])
    (hnext : d₂.next = d.next) (ho : Stands d₂ l o (d₂.entries (K.object l).path)) :
    Legible K l o d₂ where
  dir := by
    refine ⟨hw,fun q hq t ht => ?_,fun q hne hq ino hf => ?_⟩
    · exact hs.unlinked l hl q (.inl (hq.trans (Setting.dir_prefix l))) t (hk ht)
    · exact hs.ancestors l hl q hne hq ino (hk hf)
  locks := by
    refine ⟨hw,fun q hq t ht => ?_,fun q hne hq ino hf => ?_⟩
    · exact hs.unlinked l hl q (.inr (hq.trans (Setting.locksDir_prefix K l))) t (hk ht)
    · by_cases he : q = K.root ++ [lockDir]
      · subst he
        exact hs.locksKept ino (hk hf)
      · obtain ⟨s,hs'⟩ := hq
        have hsne : s ≠ [] := by
          rintro rfl
          exact he (by simpa using hs')
        have hroot := prefix_of_split hs'.symm hsne
        exact hs.ancestors l hl q hne (hroot.trans (Setting.root_prefix K l)) ino (hk hf)
  clearObject := fun q hq t ht => hs.unlinked l hl q (.inl hq) t (hk ht)
  clearLock := fun q hq t ht => hs.unlinked l hl q (.inr hq) t (hk ht)
  lock := fun hd => hs.lockKept l hl (hk hd)
  free := hfree
  bounded := by
    intro ino hf
    rw [hnext]
    exact hs.bounded _ ino (hk hf)
  stands := ho

theorem Sane.legible_crash (hs : Sane K d) (hl : K.sites l) (h : Crash d d₂)
    (ho : Stands d₂ l o (d₂.entries (K.object l).path)) : Legible K l o d₂ :=
  hs.legible hl h.wf h.kept h.locks h.next ho

theorem Sane.legible_free (hs : Sane K d) (hl : K.sites l) (hfree : ∀ ino, d.locks ino = [])
    (ho : Stands d l o (d.entries (K.object l).path)) : Legible K l o d :=
  hs.legible hl hs.wf (fun {p _} hp => hp ▸ hs.current p) hfree rfl ho

theorem Crash.entry_firm (h : Crash d d₂) (hp : ∀ q ∈ ancestors p, ∀ n ∈ d.kept q, n = some .dir) :
    d₂.entries p ∈ d.kept p := by
  cases h with
  | crash choice scrambled kept =>
      have hdirs : ∀ q ∈ ancestors p, choice q = some .dir := fun q hq => hp q hq _ (kept q)
      simpa only [Disk.crash,if_pos hdirs] using kept p

end Crashes

end Filesystem

end Objsds
