import Objsds.Filesystem.Confinement
import Objsds.Filesystem.Layout

namespace Objsds

open Foundation FilesystemStore

namespace Filesystem

structure Setting.Spaced (K : Setting) : Prop where
  accepted : ∀ l, K.sites l → accepted l.asStr = true
  notLock : ∀ l l', K.sites l → K.sites l' → (K.object l).path ≠ K.lock l'
  apart : ∀ l l', K.sites l → K.sites l' → ¬ (K.object l).path <+: K.dir l'
  lockApart : ∀ l l', K.sites l → K.sites l' → ¬ K.lock l <+: K.dir l'
  temporaryApart : ∀ l l' id, K.sites l → K.sites l' → ¬ K.temporary l id <+: K.dir l'

structure Sane (K : Setting) (d : Disk) : Prop where
  wf : d.Wf
  current : ∀ p, d.entries p ∈ d.kept p
  bounded : ∀ p ino, some (.file ino) ∈ d.kept p → ino < d.next
  rootDir : d.node K.root = some .dir
  locksDir : d.entries (K.root ++ [lockDir]) = some .dir
  unlinked : ∀ l, K.sites l → ∀ q, q <+: (K.object l).path ∨ q <+: K.lock l →
    ∀ t, some (.link t) ∉ d.kept q
  ancestors : ∀ l, K.sites l → ∀ q, q ≠ [] → q <+: K.dir l → ∀ ino, some (.file ino) ∉ d.kept q
  locksKept : ∀ ino, some (.file ino) ∉ d.kept (K.root ++ [lockDir])
  lockKept : ∀ l, K.sites l → some .dir ∉ d.kept (K.lock l)

def Tidy (K : Setting) : Sys → Prop
  | .mkdir p => (∃ l, K.sites l ∧ p <+: K.dir l) ∨ ((∃ l, K.sites l) ∧ p <+: K.root ++ [lockDir])
  | .openLock p => ∃ l, K.sites l ∧ p = K.lock l
  | .createNew p => ∃ l id, K.sites l ∧ p = K.temporary l id
  | .removeFile p => ∃ l id, K.sites l ∧ p = K.temporary l id
  | .rename p t => ∃ l id, K.sites l ∧ p = K.temporary l id ∧ t = K.object l
  | _ => True

inductive Place (K : Setting) : Sys → Path → Option Node → Prop
  | dir {l : Location} {p : Path} : K.sites l → p <+: K.dir l → Place K (.mkdir p) p (some .dir)
  | locks {l : Location} {p : Path} : K.sites l → p <+: K.root ++ [lockDir] →
      Place K (.mkdir p) p (some .dir)
  | lock {l : Location} {ino : ℕ} : K.sites l →
      Place K (.openLock (K.lock l)) (K.lock l) (some (.file ino))
  | temporary {l : Location} {id : Uuid} {ino : ℕ} : K.sites l →
      Place K (.createNew (K.temporary l id)) (K.temporary l id) (some (.file ino))
  | removed {l : Location} {id : Uuid} : K.sites l →
      Place K (.removeFile (K.temporary l id)) (K.temporary l id) none

inductive Reshaped (K : Setting) (d : Disk) : Sys → Disk → Prop
  | same {e : Sys} {d' : Disk} : d'.entries = d.entries → d'.kept = d.kept → d'.next = d.next →
      Reshaped K d e d'
  | synced {p : Path} {d' : Disk} : d'.entries = d.entries →
      d'.kept = (d.syncDir p).kept → d'.next = d.next → Reshaped K d (.syncDir p) d'
  | put {e : Sys} {d' : Disk} {p : Path} {n : Option Node} : Place K e p n → p ≠ [] →
      d.entries p ≠ some .dir → d.node p.dropLast = some .dir →
      d'.entries = Function.update d.entries p n →
      d'.kept = Function.update d.kept p (n :: d.kept p) → d.next ≤ d'.next →
      (∀ ino, n = some (.file ino) → ino = d.next ∧ ino < d'.next) → Reshaped K d e d'
  | moved {l : Location} {id : Uuid} {ino : ℕ} : K.sites l → dirOnly l.asStr = false →
      d.entries (K.temporary l id) = some (.file ino) → d.entries (K.object l).path ≠ some .dir →
      d.node (K.dir l) = some .dir →
      Reshaped K d (.rename (K.temporary l id) (K.object l))
        ((d.set (K.object l).path (some (.file ino))).set (K.temporary l id) none)

section Sane

variable {K : Setting} {d d' : Disk} {l : Location} {p : Path} {n : Option Node}

theorem Sane.clearObject (h : Sane K d) (hl : K.sites l) : d.Clear (K.object l).path := by
  intro q hq t ht
  refine h.unlinked l hl q (.inl hq) t ?_
  rw [← ht]
  exact h.current q

theorem Sane.clearLock (h : Sane K d) (hl : K.sites l) : d.Clear (K.lock l) := by
  intro q hq t ht
  refine h.unlinked l hl q (.inr hq) t ?_
  rw [← ht]
  exact h.current q

theorem Sane.clearDir (h : Sane K d) (hl : K.sites l) : d.Clear (K.dir l) :=
  (h.clearObject hl).mono (Setting.dir_prefix l)

theorem Setting.locksDir_prefix (K : Setting) (l : Location) : K.root ++ [lockDir] <+: K.lock l := by
  rw [Setting.lock_split]
  exact List.prefix_append ..

theorem Setting.root_prefix (K : Setting) (l : Location) : K.root <+: K.dir l :=
  List.prefix_append ..

theorem Setting.object_ne_nil (h : accepted l.asStr = true) : (K.object l).path ≠ [] := by
  obtain ⟨name,hname,-⟩ := Setting.object_split (K := K) h
  simp [hname]

theorem Setting.temporary_ne_nil (K : Setting) (l : Location) (id : Uuid) :
    K.temporary l id ≠ [] := by
  simp [Setting.temporary]

theorem Sane.put (h : Sane K d) (hp : p ≠ []) (hfree : d.entries p ≠ some .dir)
    (habove : d.node p.dropLast = some .dir) (he : d'.entries = Function.update d.entries p n)
    (hk : d'.kept = Function.update d.kept p (n :: d.kept p)) (hnext : d.next ≤ d'.next)
    (hfile : ∀ ino, n = some (.file ino) → ino < d'.next) (hlink : ∀ t, n ≠ some (.link t))
    (hbelow : ∀ l ino, K.sites l → p <+: K.dir l → n ≠ some (.file ino))
    (hlock : ∀ l, K.sites l → K.lock l = p → n ≠ some .dir) : Sane K d' := by
  have hnode : d.node p ≠ some .dir := by rwa [Disk.node_of_ne hp]
  have hstays : ∀ q, d.node q = some .dir → d'.node q = some .dir := by
    intro q hq
    have hne : q ≠ p := by
      rintro rfl
      exact hnode hq
    rw [Disk.node_update he hne,hq]
  have hlocks : K.root ++ [lockDir] ≠ p := by
    rintro rfl
    exact hfree h.locksDir
  constructor
  · exact Disk.wf_update h.wf he hp (fun _ => habove) hnode
  · intro q
    by_cases hq : q = p
    · subst hq
      simp [he,hk]
    · rw [he,hk,Function.update_of_ne hq,Function.update_of_ne hq]
      exact h.current q
  · intro q ino hq
    rcases Disk.kept_update hk hq with ⟨-,hn⟩ | hq
    · exact hfile ino hn.symm
    · exact Nat.lt_of_lt_of_le (h.bounded q ino hq) hnext
  · exact hstays _ h.rootDir
  · rw [he,Function.update_of_ne hlocks]
    exact h.locksDir
  · intro l hl q hq t hm
    rcases Disk.kept_update hk hm with ⟨-,hn⟩ | hm
    · exact hlink t hn.symm
    · exact h.unlinked l hl q hq t hm
  · intro l hl q hq hql ino hm
    rcases Disk.kept_update hk hm with ⟨rfl,hn⟩ | hm
    · exact hbelow l ino hl hql hn.symm
    · exact h.ancestors l hl q hq hql ino hm
  · intro ino hm
    rcases Disk.kept_update hk hm with ⟨hq,-⟩ | hm
    · exact hlocks hq
    · exact h.locksKept ino hm
  · intro l hl hm
    rcases Disk.kept_update hk hm with ⟨hq,hn⟩ | hm
    · exact hlock l hl hq hn.symm
    · exact h.lockKept l hl hm

theorem Sane.place (hK : K.Spaced) {e : Sys} (h : Sane K d) (hplace : Place K e p n) (hp : p ≠ [])
    (hfree : d.entries p ≠ some .dir) (habove : d.node p.dropLast = some .dir)
    (he : d'.entries = Function.update d.entries p n)
    (hk : d'.kept = Function.update d.kept p (n :: d.kept p)) (hnext : d.next ≤ d'.next)
    (hfile : ∀ ino, n = some (.file ino) → ino < d'.next) : Sane K d' := by
  refine h.put hp hfree habove he hk hnext hfile ?_ ?_ ?_
  · intro t
    cases hplace <;> simp
  · intro l ino hl hpre
    cases hplace with
    | lock hl' => exact absurd hpre (hK.lockApart _ l hl' hl)
    | temporary hl' => exact absurd hpre (hK.temporaryApart _ l _ hl' hl)
    | dir | locks | removed => simp
  · rintro l hl rfl
    generalize hq : K.lock l = q at hplace
    cases hplace with
    | dir hl' hpre => exact absurd (hq ▸ hpre) (hK.lockApart l _ hl hl')
    | locks hl' hpre =>
        have := (hq ▸ hpre).length_le
        simp [Setting.lock,lockPath] at this
    | lock | temporary | removed => simp

theorem Sane.renamed (hK : K.Spaced) (h : Sane K d) {id : Uuid} {ino : ℕ} (hl : K.sites l)
    (htmp : d.entries (K.temporary l id) = some (.file ino))
    (hobj : d.entries (K.object l).path ≠ some .dir) (hdir : d.node (K.dir l) = some .dir) :
    Sane K ((d.set (K.object l).path (some (.file ino))).set (K.temporary l id) none) := by
  obtain ⟨name,hname,-⟩ := Setting.object_split (K := K) (hK.accepted l hl)
  have hdirne : K.dir l ≠ (K.object l).path := by simp [hname]
  have hlt : ino < d.next := by
    refine h.bounded (K.temporary l id) ino ?_
    rw [← htmp]
    exact h.current _
  have hfirst : Sane K (d.set (K.object l).path (some (.file ino))) := by
    refine h.put (by simp [hname]) hobj ?_ rfl rfl (Nat.le_refl _) ?_ (by simp) ?_ (by simp)
    · rw [hname,List.dropLast_concat]
      exact hdir
    · rintro k hk
      obtain rfl := Node.file.inj (Option.some.inj hk)
      exact hlt
    · intro l' k hl' hpre
      exact absurd hpre (hK.apart l l' hl hl')
  refine hfirst.put (Setting.temporary_ne_nil K l id) ?_ ?_ rfl rfl (Nat.le_refl _) (by simp)
    (by simp) (by simp) (by simp)
  · by_cases hsame : K.temporary l id = (K.object l).path
    · simp [Disk.set,hsame]
    · simp [Disk.set,hsame,htmp]
  · rw [Setting.temporary,List.dropLast_concat,Disk.node_update rfl hdirne]
    exact hdir

theorem Sane.keep (h : Sane K d) (he : d'.entries = d.entries)
    (hk : ∀ q m, m ∈ d'.kept q → m ∈ d.kept q) (hc : ∀ q, d.entries q ∈ d'.kept q)
    (hnext : d'.next = d.next) : Sane K d' := by
  have hnode : ∀ q, d'.node q = d.node q := fun q => by simp [Disk.node,he]
  constructor
  · intro q c hq
    rw [hnode]
    exact h.wf q c (by rwa [he] at hq)
  · intro q
    rw [he]
    exact hc q
  · intro q ino hq
    rw [hnext]
    exact h.bounded q ino (hk q _ hq)
  · rw [hnode]
    exact h.rootDir
  · rw [he]
    exact h.locksDir
  · exact fun l hl q hq t hm => h.unlinked l hl q hq t (hk q _ hm)
  · exact fun l hl q hq hql ino hm => h.ancestors l hl q hq hql ino (hk q _ hm)
  · exact fun ino hm => h.locksKept ino (hk _ _ hm)
  · exact fun l hl hm => h.lockKept l hl (hk _ _ hm)

theorem Reshaped.sane (hK : K.Spaced) {e : Sys} (h : Sane K d) (hr : Reshaped K d e d') :
    Sane K d' := by
  cases hr with
  | same he hk hnext =>
      refine h.keep he ?_ ?_ hnext
      · rw [hk]
        exact fun _ _ hm => hm
      · rw [hk]
        exact h.current
  | @synced p _ he hk hnext =>
      refine h.keep he ?_ ?_ hnext
      · rw [hk]
        exact fun q m hm => Disk.syncDir_kept h.current hm
      · intro q
        rw [hk]
        simp only [Disk.syncDir]
        split
        · exact List.mem_singleton_self _
        · exact h.current q
  | put hplace hp hfree habove he hk hnext hfile =>
      exact h.place hK hplace hp hfree habove he hk hnext (fun ino hn => (hfile ino hn).2)
  | moved hl _ htmp hobj hdir => exact h.renamed hK hl htmp hobj hdir

end Sane

section Steps

variable {K : Setting} {d d' : Disk} {l : Location} {faults : Prop} {i : ℕ} {e : Sys}
  {r : SysReply e}

theorem Setting.temporary_dropLast (K : Setting) (l : Location) (id : Uuid) :
    (K.temporary l id).dropLast = K.dir l :=
  List.dropLast_concat

theorem Sane.located (h : Sane K d) (hl : K.sites l) (c : String) :
    (d.locate (K.dir l ++ [c]) = .ok (K.dir l ++ [c]) ∧ d.node (K.dir l) = some .dir) ∨
      ∃ e, d.locate (K.dir l ++ [c]) = .error e := by
  have hloc := Disk.locate_located (p := K.dir l ++ [c]) h.wf (by simpa using h.clearDir hl)
  cases hr : d.locate (K.dir l ++ [c]) with
  | error e => exact .inr ⟨e,rfl⟩
  | ok q =>
      rw [hr] at hloc
      cases hloc with
      | found ha => exact .inl ⟨rfl,by simpa using ha⟩

theorem mkdir_reshaped (h : Sane K d) {p : Path} (ht : Tidy K (.mkdir p)) :
    Reshaped K d (.mkdir p) (d.mkdir p).2 := by
  have hplace : Place K (.mkdir p) p (some .dir) ∧ d.Clear p := by
    rcases ht with ⟨l,hl,hp⟩ | ⟨⟨l,hl⟩,hp⟩
    · exact ⟨.dir hl hp,(h.clearDir hl).mono hp⟩
    · exact ⟨.locks hl hp,(h.clearLock hl).mono (hp.trans (Setting.locksDir_prefix K l))⟩
  have hmade := Disk.mkdir_made h.wf hplace.2
  generalize d.mkdir p = x at hmade
  cases hmade with
  | made q c hs habsent habove =>
      subst hs
      refine .put hplace.1 (by simp) (by simp [habsent]) (by simpa using habove) rfl rfl
        (Nat.le_refl _) (by simp)
  | present | missing | through => exact .same rfl rfl rfl

theorem openLock_reshaped (h : Sane K d) (hl : K.sites l) :
    Reshaped K d (.openLock (K.lock l)) (d.openLock i (K.lock l)).2 := by
  have hne : K.lock l ≠ [] := by simp [Setting.lock_split]
  have hlocks : d.node (K.root ++ [lockDir]) = some .dir := (Disk.node_snoc lockDir).trans h.locksDir
  have hres : d.resolve (K.lock l) = .ok (K.lock l) := by
    have hclear := h.clearLock hl
    rw [Setting.lock_split] at hclear ⊢
    exact Disk.resolve_child h.wf hclear hlocks
  simp only [Disk.openLock,hres,Disk.node_of_ne hne]
  cases hn : d.entries (K.lock l) with
  | some n => cases n <;> exact .same rfl rfl rfl
  | none =>
      refine .put (.lock hl) hne (by simp [hn]) ?_ rfl rfl (Nat.le_succ _) ?_
      · rw [Setting.lock_split,List.dropLast_concat]
        exact hlocks
      · rintro ino hk
        obtain rfl := Node.file.inj (Option.some.inj hk)
        exact ⟨rfl,Nat.lt_succ_self _⟩

theorem createNew_reshaped (h : Sane K d) (hl : K.sites l) (id : Uuid) :
    Reshaped K d (.createNew (K.temporary l id)) (d.createNew i (K.temporary l id)).2 := by
  have hne := Setting.temporary_ne_nil K l id
  have hfound := h.located hl (temporaryName id)
  rw [← Setting.temporary] at hfound
  rcases hfound with ⟨hloc,hdir⟩ | ⟨e,hloc⟩
  · simp only [Disk.createNew,hloc,Disk.node_of_ne hne]
    cases hn : d.entries (K.temporary l id) with
    | some n => exact .same rfl rfl rfl
    | none =>
        refine .put (.temporary hl) hne (by simp [hn]) ?_ rfl rfl (Nat.le_succ _) ?_
        · rwa [Setting.temporary_dropLast]
        · rintro ino hk
          obtain rfl := Node.file.inj (Option.some.inj hk)
          exact ⟨rfl,Nat.lt_succ_self _⟩
  · simp only [Disk.createNew,hloc]
    exact .same rfl rfl rfl

theorem removeFile_reshaped (h : Sane K d) (hl : K.sites l) (id : Uuid) :
    Reshaped K d (.removeFile (K.temporary l id)) (d.removeFile (K.temporary l id)).2 := by
  have hne := Setting.temporary_ne_nil K l id
  have hfound := h.located hl (temporaryName id)
  rw [← Setting.temporary] at hfound
  rcases hfound with ⟨hloc,hdir⟩ | ⟨e,hloc⟩
  · have hput : d.entries (K.temporary l id) ≠ some .dir →
        Reshaped K d (.removeFile (K.temporary l id)) (d.set (K.temporary l id) none) := by
      intro hn
      refine .put (.removed hl) hne hn ?_ rfl rfl (Nat.le_refl _) (by simp)
      rwa [Setting.temporary_dropLast]
    simp only [Disk.removeFile,hloc,Disk.node_of_ne hne]
    cases hn : d.entries (K.temporary l id) with
    | none => exact .same rfl rfl rfl
    | some n =>
        cases n with
        | dir => exact .same rfl rfl rfl
        | file | link => exact hput (by simp [hn])
  · simp only [Disk.removeFile,hloc]
    exact .same rfl rfl rfl

theorem rename_reshaped (hK : K.Spaced) (h : Sane K d) (hl : K.sites l) (id : Uuid) :
    Reshaped K d (.rename (K.temporary l id) (K.object l))
      (d.rename (K.temporary l id) (K.object l)).2 := by
  obtain ⟨name,hname,-⟩ := Setting.object_split (K := K) (hK.accepted l hl)
  have hsource := h.located hl (temporaryName id)
  have htarget := h.located hl name
  rw [← Setting.temporary] at hsource
  rw [← hname] at htarget
  rcases hsource with ⟨hs,hdir⟩ | ⟨e,hs⟩
  · rcases htarget with ⟨ht,-⟩ | ⟨e,ht⟩
    · simp only [Disk.rename,hs,ht,Disk.node_of_ne (Setting.temporary_ne_nil K l id),
        Disk.node_of_ne (Setting.object_ne_nil (K := K) (hK.accepted l hl))]
      cases hn : d.entries (K.temporary l id) with
      | none => exact .same rfl rfl rfl
      | some n =>
          cases n with
          | dir | link => exact .same rfl rfl rfl
          | file ino =>
              dsimp only
              split
              · exact .same rfl rfl rfl
              · rename_i hplain
                split
                · exact .same rfl rfl rfl
                · rename_i hobj
                  split
                  · exact .same rfl rfl rfl
                  · exact .moved hl (by simpa [Setting.object,join] using hplain) hn hobj hdir
    · simp only [Disk.rename,hs,ht]
      exact .same rfl rfl rfl
  · simp only [Disk.rename,hs]
    exact .same rfl rfl rfl

theorem env_reshaped (hK : K.Spaced) (h : Sane K d) (ht : Tidy K e)
    (henv : Env faults d ⟨i,e,r⟩ d') : Reshaped K d e d' := by
  cases henv with
  | nowMillis | nowV7 | fault | shortWrite => exact .same rfl rfl rfl
  | exec he =>
      have hsame : ∀ {x : SysReply e × Disk}, some x = some (r,d') → x.2 = d' := by
        intro x hx
        rw [Option.some.inj hx]
      cases e with
      | mkdir p => exact hsame he ▸ mkdir_reshaped h ht
      | openLock p =>
          obtain ⟨l,hl,rfl⟩ := ht
          exact hsame he ▸ openLock_reshaped h hl
      | createNew p =>
          obtain ⟨l,id,hl,rfl⟩ := ht
          exact hsame he ▸ createNew_reshaped h hl id
      | removeFile p =>
          obtain ⟨l,id,hl,rfl⟩ := ht
          exact hsame he ▸ removeFile_reshaped h hl id
      | rename p t =>
          obtain ⟨l,id,hl,rfl,rfl⟩ := ht
          exact hsame he ▸ rename_reshaped hK h hl id
      | syncDir p => exact hsame he ▸ .synced rfl rfl rfl
      | nowV7 | nowMillis => simp [Disk.exec] at he
      | lock ino mode | writeAll ino bytes =>
          simp only [Disk.exec] at he
          split at he
          · exact hsame he ▸ .same rfl rfl rfl
          · simp at he
      | _ => exact hsame he ▸ .same rfl rfl rfl

theorem sane_step (hK : K.Spaced) (h : Sane K d) (ht : Tidy K e)
    (henv : Env faults d ⟨i,e,r⟩ d') : Sane K d' :=
  (env_reshaped hK h ht henv).sane hK h

theorem sane_run (hK : K.Spaced) {α : Type} {c c' : Config Disk SysReply α} {tr : Trace SysReply}
    (h : Run (Env faults) c tr c') (hs : Sane K c.world) (ht : ∀ j, (c.calls j).Only (Tidy K)) :
    Sane K c'.world := by
  have hall := (h.only (P := fun _ => Tidy K) ht).1
  induction h with
  | nil => exact hs
  | @snoc tr ev m c' _ hstep ih =>
      have hm := ih (fun e he => hall e (by simp [he]))
      exact sane_step hK hm (hall ev (by simp)) hstep.world

end Steps

section Frames

variable {K : Setting} {d d' : Disk} {l : Location} {faults : Prop} {i : ℕ} {e : Sys}
  {r : SysReply e}

-- The parts of the disk a step leaves alone unless it is the request meant for them.
structure Framed (e : Sys) (d d' : Disk) : Prop where
  locks : (∀ ino mode, e ≠ .lock ino mode) → (∀ ino, e ≠ .unlock ino) → d'.locks = d.locks
  files : ∀ k, k < d.next → (∀ bytes, e ≠ .writeAll k bytes) → e ≠ .syncAll k →
    d'.data k = d.data k ∧ d'.synced k = d.synced k
  drawn : ∀ id, d.drawn id ≠ none → d'.drawn id ≠ none
  next : d.next ≤ d'.next

theorem Framed.refl (e : Sys) (d : Disk) : Framed e d d :=
  ⟨fun _ _ => rfl,fun _ _ _ _ => ⟨rfl,rfl⟩,fun _ h => h,Nat.le_refl _⟩

theorem Framed.trans {d'' : Disk} (h : Framed e d d') (h' : Framed e d' d'') : Framed e d d'' := by
  refine ⟨fun hl hu => (h'.locks hl hu).trans (h.locks hl hu),fun k hk hw hs => ?_,
    fun id hid => h'.drawn id (h.drawn id hid),Nat.le_trans h.next h'.next⟩
  obtain ⟨h₁,h₂⟩ := h.files k hk hw hs
  obtain ⟨h₁',h₂'⟩ := h'.files k (Nat.lt_of_lt_of_le hk h.next) hw hs
  exact ⟨h₁'.trans h₁,h₂'.trans h₂⟩

theorem set_framed (e : Sys) (d : Disk) (p : Path) (n : Option Node) : Framed e d (d.set p n) :=
  ⟨fun _ _ => rfl,fun _ _ _ _ => ⟨rfl,rfl⟩,fun _ h => h,Nat.le_refl _⟩

theorem newFile_framed (e : Sys) (d : Disk) (i : ℕ) (p : Path) : Framed e d (d.newFile i p) :=
  ⟨fun _ _ => rfl,fun _ hk _ _ => d.newFile_data i p hk,fun _ h => h,Nat.le_succ _⟩

theorem rename_framed (e : Sys) (d : Disk) (p : Path) (t : Target) :
    Framed e d (d.rename p t).2 := by
  unfold Disk.rename
  split
  · exact .refl e d
  · exact .refl e d
  · split
    · exact .refl e d
    · split
      · exact .refl e d
      · split
        · exact .refl e d
        · split
          · exact .refl e d
          · exact (set_framed e d _ _).trans (set_framed e _ _ _)
    · exact .refl e d

theorem exec_framed (he : d.exec i e = some (r,d')) : Framed e d d' := by
  have hsame : ∀ {x : SysReply e × Disk}, some x = some (r,d') → x.2 = d' := by
    intro x hx
    rw [Option.some.inj hx]
  cases e with
  | nowV7 | nowMillis => simp [Disk.exec] at he
  | symlinkMetadata | isDir | read | canonicalize | openDir => exact hsame he ▸ .refl _ d
  | syncDir p =>
      exact hsame he ▸ ⟨fun _ _ => rfl,fun _ _ _ _ => ⟨rfl,rfl⟩,fun _ h => h,Nat.le_refl _⟩
  | rename p t => exact hsame he ▸ rename_framed _ d p t
  | mkdir p =>
      refine hsame he ▸ ?_
      unfold Disk.mkdir
      split
      · exact .refl _ d
      · split
        · exact .refl _ d
        · exact set_framed _ d _ _
  | openLock p =>
      refine hsame he ▸ ?_
      unfold Disk.openLock
      split
      · exact .refl _ d
      · split
        · exact .refl _ d
        · exact .refl _ d
        · exact .refl _ d
        · exact newFile_framed _ d i _
  | createNew p =>
      refine hsame he ▸ ?_
      unfold Disk.createNew
      split
      · exact .refl _ d
      · split
        · exact .refl _ d
        · exact newFile_framed _ d i _
  | removeFile p =>
      refine hsame he ▸ ?_
      unfold Disk.removeFile
      split
      · exact .refl _ d
      · split
        · exact .refl _ d
        · exact .refl _ d
        · exact set_framed _ d _ _
  | lock ino mode =>
      simp only [Disk.exec] at he
      split at he
      · refine hsame he ▸ ⟨fun h _ => absurd rfl (h ino mode),fun _ _ _ _ => ⟨rfl,rfl⟩,fun _ h => h,
          Nat.le_refl _⟩
      · simp at he
  | unlock ino =>
      exact hsame he ▸ ⟨fun _ h => absurd rfl (h ino),fun _ _ _ _ => ⟨rfl,rfl⟩,fun _ h => h,
        Nat.le_refl _⟩
  | writeAll ino bytes =>
      simp only [Disk.exec] at he
      split at he
      · refine hsame he ▸ ⟨fun _ _ => rfl,fun k _ hw _ => ?_,fun _ h => h,Nat.le_refl _⟩
        have hne : k ≠ ino := by
          rintro rfl
          exact hw bytes rfl
        simp [Disk.append,hne]
      · simp at he
  | syncAll ino =>
      refine hsame he ▸ ⟨fun _ _ => rfl,fun k _ _ hs => ?_,fun _ h => h,Nat.le_refl _⟩
      have hne : k ≠ ino := by
        rintro rfl
        exact hs rfl
      simp [Disk.syncAll,hne]

theorem env_framed (h : Env faults d ⟨i,e,r⟩ d') : Framed e d d' := by
  cases h with
  | exec he => exact exec_framed he
  | nowMillis | fault => exact .refl _ d
  | nowV7 _ id hid =>
      refine ⟨fun _ _ => rfl,fun _ _ _ _ => ⟨rfl,rfl⟩,fun x hx => ?_,Nat.le_refl _⟩
      by_cases hxi : x = id
      · simp [Disk.draw,hxi]
      · simpa [Disk.draw,hxi] using hx
  | @shortWrite _ ino bytes part =>
      refine ⟨fun _ _ => rfl,fun k _ hw _ => ?_,fun _ h => h,Nat.le_refl _⟩
      have hne : k ≠ ino := by
        rintro rfl
        exact hw bytes rfl
      simp [Disk.append,hne]

theorem Reshaped.object (hK : K.Spaced) (h : Sane K d) (hl : K.sites l)
    (hlocks : ¬ (K.object l).path <+: K.root ++ [lockDir]) (hr : Reshaped K d e d')
    (hrename : ∀ p t, e ≠ .rename p t)
    (htmp : ∀ p, e = .createNew p ∨ e = .removeFile p → (K.object l).path ≠ p) {n : Option Node}
    (hn : n ∈ d'.kept (K.object l).path) : n ∈ d.kept (K.object l).path := by
  cases hr with
  | same _ hk _ => rwa [hk] at hn
  | synced _ hk _ =>
      rw [hk] at hn
      exact Disk.syncDir_kept h.current hn
  | moved => exact absurd rfl (hrename _ _)
  | put hplace hp hfree habove he hk hnext hfile =>
      rename_i p m
      have hne : (K.object l).path ≠ p := by
        cases hplace with
        | dir hl' hp =>
            rintro he
            exact hK.apart l _ hl hl' (he ▸ hp)
        | locks _ hp =>
            rintro he
            exact hlocks (he ▸ hp)
        | lock hl' => exact hK.notLock l _ hl hl'
        | temporary => exact htmp _ (.inl rfl)
        | removed => exact htmp _ (.inr rfl)
      rwa [hk,Function.update_of_ne hne] at hn

end Frames

section Programs

variable {K : Setting} {l : Location} {α β ε ε' : Type}

theorem only_createDirAll_under {P : Sys → Prop} {p : Path}
    (hmake : ∀ q, q <+: p → P (.mkdir q)) (hdir : ∀ q, P (.isDir q)) : (createDirAll p).Only P := by
  have hup : ∀ up : List String, (∀ q, q <+: up.reverse → P (.mkdir q)) →
      (createDirAllUp up).Only P := by
    intro up
    induction up with
    | nil =>
        intro h
        refine ⟨h [] (by simp),fun r => ?_⟩
        rcases r with (e | u)
        · cases e <;> first | trivial | exact only_orExisting _ _ hdir
        · trivial
    | cons c up ih =>
        intro h
        have hrest := ih (fun q hq => h q (by
          rw [List.reverse_cons]
          exact hq.trans (List.prefix_append ..)))
        have hself := h (c :: up).reverse (List.prefix_refl _)
        refine ⟨hself,fun r => ?_⟩
        rcases r with (e | u)
        · cases e with
          | notFound =>
              refine hrest.bind (fun r => ?_)
              rcases r with (e | u)
              · trivial
              · refine ⟨hself,fun r => ?_⟩
                rcases r with (e | u)
                · exact only_orExisting _ _ hdir
                · trivial
          | _ => exact only_orExisting _ _ hdir
        · trivial
  refine hup p.reverse ?_
  rwa [List.reverse_reverse]

theorem tidy_createDirAll {p : Path} (h : ∀ q, q <+: p → Tidy K (.mkdir q)) :
    (createDirAll p).Only (Tidy K) :=
  only_createDirAll_under h (fun _ => trivial)

theorem tidy_reject (current : Path) (rest : List String) :
    (rejectExistingSymlinks current rest).Only (Tidy K) :=
  only_reject _ _ (fun _ => trivial)

theorem tidy_acquire (hl : K.sites l) (mode : LockMode) :
    (ObjectLock.acquire (lockPath K.root l) mode).run.Only (Tidy K) := by
  rw [← Setting.lock,ObjectLock.acquire,parentOf_lock]
  refine only_bindExcept (only_io (tidy_createDirAll (fun q hq => .inr ⟨⟨l,hl⟩,hq⟩))) (fun _ => ?_)
  refine only_bindExcept (only_io (only_request ⟨l,hl,rfl⟩)) (fun file => ?_)
  exact only_bindExcept (only_io (only_request trivial)) (fun _ => trivial)

theorem tidy_holding {ino : ℕ} {body : Fs α} (h : body.Only (Tidy K)) :
    (ObjectLock.holding ino body).Only (Tidy K) :=
  h.bind (fun _ => ⟨trivial,fun _ => trivial⟩)

theorem tidy_readPath (t : Target) : (readPath t).Only (Tidy K) := by
  refine ⟨trivial,fun r => ?_⟩
  rcases r with (e | b)
  · cases e <;> trivial
  · trivial

theorem tidy_preparePath (hacc : accepted l.asStr = true) (hl : K.sites l) {wrap : StoreError → ε'}
    {f : Target → FsResult ε' α} (hf : (f (K.object l)).run.Only (Tidy K)) :
    (ExceptT.adapt wrap (preparePath ⟨K.root⟩ l) >>= f).run.Only (Tidy K) := by
  rw [preparePath,objectPath_bind hacc,adapt_bind,bind_assoc]
  refine only_bindExcept (only_adapt wrap (tidy_reject _ _)) (fun _ => ?_)
  rw [parentOf_object hacc,adapt_bind,bind_assoc]
  refine only_bindExcept (only_adapt wrap
    (only_io (tidy_createDirAll (fun q hq => .inl ⟨l,hl,hq⟩)))) (fun _ => ?_)
  rw [adapt_bind,bind_assoc]
  refine only_bindExcept (only_adapt wrap (tidy_reject _ _)) (fun _ => ?_)
  rw [adapt_pure,pure_bind]
  exact hf

theorem tidy_publish (hacc : accepted l.asStr = true) (hl : K.sites l) (encoded : Bytes) :
    (publish (K.object l) encoded).run.Only (Tidy K) := by
  rw [publish,parentOf_object hacc]
  refine only_bindExcept ⟨trivial,fun _ => trivial⟩ (fun id => ?_)
  refine Program.Only.bind ?_ (fun r => ?_)
  · refine only_bindExcept (only_io (only_request ⟨l,id,hl,rfl⟩)) (fun file => ?_)
    refine only_bindExcept (only_io (only_request trivial)) (fun _ => ?_)
    refine only_bindExcept (only_io (only_request trivial)) (fun _ => ?_)
    refine only_bindExcept (only_io (only_request ⟨l,id,hl,rfl,rfl⟩)) (fun _ => ?_)
    refine only_bindExcept (only_io (only_request trivial)) (fun opened => ?_)
    exact only_io (only_request trivial)
  · rcases r with (e | u)
    · exact ⟨⟨l,id,hl,rfl⟩,fun _ => trivial⟩
    · trivial

theorem tidy_write (hacc : accepted l.asStr = true) (hl : K.sites l) (bytes : Bytes) :
    (write (K.object l) bytes).run.Only (Tidy K) := by
  refine only_bindExcept ⟨trivial,fun _ => trivial⟩ (fun encoded => ?_)
  exact only_bindExcept (tidy_publish hacc hl _) (fun _ => trivial)

theorem serve_tidy {rq : Request} (hacc : accepted rq.location.asStr = true)
    (hl : K.sites rq.location) : (serve ⟨K.root⟩ rq).Only (Tidy K) := by
  cases rq with
  | get l =>
      have hacc : accepted l.asStr = true := hacc
      rw [serve,FilesystemStore.get,objectPath_bind hacc]
      refine only_bindExcept (tidy_reject _ _) (fun _ => ?_)
      refine only_bindExcept (tidy_acquire hl _) (fun ino => ?_)
      exact tidy_holding (tidy_readPath _)
  | create l b =>
      refine Program.Only.map (tidy_preparePath hacc hl ?_)
      refine only_bindExcept (only_adapt _ (tidy_acquire hl _)) (fun ino => tidy_holding ?_)
      refine only_bindExcept (only_adapt _ (tidy_readPath _)) (fun current => ?_)
      cases current with
      | some o => trivial
      | none => exact only_adapt _ (tidy_write hacc hl b)
  | replace l x b =>
      refine Program.Only.map (tidy_preparePath hacc hl ?_)
      refine only_bindExcept (only_adapt _ (tidy_acquire hl _)) (fun ino => tidy_holding ?_)
      refine only_bindExcept (only_adapt _ (tidy_readPath _)) (fun current => ?_)
      split
      · trivial
      · exact only_adapt _ (tidy_write hacc hl b)

end Programs

end Filesystem

end Objsds
