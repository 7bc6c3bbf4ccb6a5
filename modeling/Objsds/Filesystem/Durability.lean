import Objsds.Filesystem.Restart
import Objsds.Foundation.Throughout
import Objsds.Memory.Mirror

namespace Objsds

open Foundation FilesystemStore

def Outcome.written : Outcome → Option Version
  | .created version => some version
  | .replaced version => some version
  | _ => none

namespace Filesystem

abbrev Answers := List (Sigma SysReply)

def drawnIn : Sigma SysReply → Option Uuid
  | ⟨.nowV7,id⟩ => some id
  | _ => none

-- The first identifier a call draws is the revision it writes.
def firstDraw (h : Answers) : Option Uuid := h.findSome? drawnIn

theorem firstDraw_snoc (h : Answers) (x : Sigma SysReply) :
    firstDraw (h ++ [x]) = (firstDraw h).or (drawnIn x) := by
  rw [firstDraw,List.findSome?_append,firstDraw]
  cases List.findSome? drawnIn h <;> cases hx : drawnIn x <;> simp [hx]

structure Complete (l : Location) (b : Bytes) (rev : Uuid) (ino : ℕ) (d : Disk) : Prop where
  plain : dirOnly l.asStr = false
  synced : d.synced ino = true
  data : decode (d.data ino) = .ok ⟨b,revisionVersion rev⟩

-- How far a write of `b` at `l` has come since the disk was `d₀`: what may be found at the location
-- is what might have been found there before, or the new object.
structure Progress (K : Setting) (l : Location) (b : Bytes) (i : ℕ) (d₀ : Disk) (h : Answers)
    (d : Disk) : Prop where
  sane : Sane K d
  next : d₀.next ≤ d.next
  drawn : ∀ id, d₀.drawn id ≠ none → d.drawn id ≠ none
  intact : ∀ k, k < d₀.next → d.data k = d₀.data k ∧ d.synced k = d₀.synced k
  locks : ∀ k j m, j ≠ i → ((j,m) ∈ d.locks k ↔ (j,m) ∈ d₀.locks k)
  above : ∀ q, q ≠ [] → q <+: K.dir l → (∀ n ∈ d₀.kept q, n ∈ d.kept q) ∧
    ((∀ n ∈ d₀.kept q, n = some .dir) → ∀ n ∈ d.kept q, n = some .dir)
  object : ∀ n ∈ d.kept (K.object l).path, n ∈ d₀.kept (K.object l).path ∨
    ∃ rev ino, firstDraw h = some rev ∧ n = some (.file ino) ∧ Complete l b rev ino d

def Mine (i : ℕ) (d₀ : Disk) (held : Option ℕ) (d : Disk) : Prop :=
  (∀ k m, (i,m) ∉ d₀.locks k) → ∀ k m, (i,m) ∈ d.locks k → held = some k

variable {K : Setting} {l : Location} {b : Bytes} {i : ℕ} {d₀ d d' : Disk} {h : Answers} {e : Sys}
  {r : SysReply e} {held : Option ℕ} {rev id : Uuid} {file : ℕ}

theorem Complete.congr {ino : ℕ} (hc : Complete l b rev ino d) (hd : d'.data ino = d.data ino)
    (hs : d'.synced ino = d.synced ino) : Complete l b rev ino d' :=
  ⟨hc.plain,by rw [hs,hc.synced],by rw [hd,hc.data]⟩

theorem Reshaped.above (hK : K.Spaced) (hs : Sane K d) (hl : K.sites l) (hr : Reshaped K d e d')
    (hsync : ∀ p, e = .syncDir p → p = K.dir l) {q : Path} (hq : q ≠ [])
    (hdir : q <+: K.dir l) :
    (∀ n ∈ d.kept q, n ∈ d'.kept q) ∧
      ((∀ n ∈ d.kept q, n = some .dir) → ∀ n ∈ d'.kept q, n = some .dir) := by
  have hsame : d'.kept q = d.kept q → (∀ n ∈ d.kept q, n ∈ d'.kept q) ∧
      ((∀ n ∈ d.kept q, n = some .dir) → ∀ n ∈ d'.kept q, n = some .dir) := by
    intro he
    rw [he]
    exact ⟨fun _ hn => hn,id⟩
  cases hr with
  | same _ hk _ => exact hsame (by rw [hk])
  | synced _ hk _ =>
      obtain rfl := hsync _ rfl
      refine hsame ?_
      have hne : q.dropLast ≠ K.dir l := by
        intro he
        have := hdir.length_le
        rw [← he,List.length_dropLast] at this
        have := List.length_pos_iff.mpr hq
        omega
      simp [hk,Disk.syncDir,hne]
  | @moved l' id ino hl' =>
      refine hsame ?_
      have h₁ : q ≠ (K.object l').path := fun he => hK.apart l' l hl' hl (he ▸ hdir)
      have h₂ : q ≠ K.temporary l' id := fun he => hK.temporaryApart l' l id hl' hl (he ▸ hdir)
      simp only [Disk.set,Function.update_of_ne h₁,Function.update_of_ne h₂]
  | put hplace hp hfree habove he hk hnext hfile =>
      rename_i p m
      by_cases hqp : q = p
      · subst hqp
        rw [hk,Function.update_self]
        exact ⟨fun n hn => List.mem_cons_of_mem _ hn,fun hd => absurd (hd _ (hs.current q)) hfree⟩
      · exact hsame (by rw [hk,Function.update_of_ne hqp])

def Sparing (K : Setting) (l : Location) (d₀ d : Disk) (e : Sys) : Prop :=
  (∀ p, e = .syncDir p → p = K.dir l) ∧ (∀ p t, e ≠ .rename p t) ∧
    (∀ p, e = .createNew p ∨ e = .removeFile p → (K.object l).path ≠ p) ∧
    ∀ k, k < d₀.next ∨ some (.file k) ∈ d.kept (K.object l).path →
      (∀ bytes, e ≠ .writeAll k bytes) ∧ e ≠ .syncAll k

theorem Progress.step (hK : K.Spaced) (hr : K.Regular l) (hl : K.sites l)
    (hp : Progress K l b i d₀ h d) (ht : Tidy K e) (hspare : Sparing K l d₀ d e)
    (henv : Env True d ⟨i,e,r⟩ d')
    (hlocks : ∀ k j m, j ≠ i → ((j,m) ∈ d'.locks k ↔ (j,m) ∈ d.locks k)) :
    Progress K l b i d₀ (h ++ [⟨e,r⟩]) d' := by
  have hshape := env_reshaped hK hp.sane ht henv
  have hframe := env_framed henv
  have hfile : ∀ k, k < d.next → k < d₀.next ∨ some (.file k) ∈ d.kept (K.object l).path →
      d'.data k = d.data k ∧ d'.synced k = d.synced k := fun k hk hs =>
    hframe.files k hk (hspare.2.2.2 k hs).1 (hspare.2.2.2 k hs).2
  refine ⟨hshape.sane hK hp.sane,Nat.le_trans hp.next hframe.next,
    fun id hid => hframe.drawn id (hp.drawn id hid),fun k hk => ?_,fun k j m hj => ?_,
    fun q hq hql => ?_,fun n hn => ?_⟩
  · obtain ⟨h₁,h₂⟩ := hfile k (Nat.lt_of_lt_of_le hk hp.next) (.inl hk)
    obtain ⟨h₃,h₄⟩ := hp.intact k hk
    exact ⟨h₁.trans h₃,h₂.trans h₄⟩
  · exact (hlocks k j m hj).trans (hp.locks k j m hj)
  · obtain ⟨h₁,h₂⟩ := hp.above q hq hql
    obtain ⟨h₃,h₄⟩ := hshape.above hK hp.sane hl hspare.1 hq hql
    exact ⟨fun n hn => h₃ n (h₁ n hn),fun hd => h₄ (h₂ hd)⟩
  · have hn' := hshape.object hK hp.sane hl hr.outside hspare.2.1 hspare.2.2.1 hn
    rcases hp.object n hn' with hold | ⟨rev,ino,hfirst,rfl,hc⟩
    · exact .inl hold
    · obtain ⟨h₁,h₂⟩ := hfile ino (hp.sane.bounded _ ino hn') (.inr hn')
      refine .inr ⟨rev,ino,?_,rfl,hc.congr h₁ h₂⟩
      rw [firstDraw_snoc,hfirst,Option.some_or]

theorem Progress.framed (hK : K.Spaced) (hr : K.Regular l) (hl : K.sites l)
    (hp : Progress K l b i d₀ h d) (ht : Tidy K e) (hspare : Sparing K l d₀ d e)
    (henv : Env True d ⟨i,e,r⟩ d') (hlock : ∀ ino mode, e ≠ .lock ino mode)
    (hunlock : ∀ ino, e ≠ .unlock ino) : Progress K l b i d₀ (h ++ [⟨e,r⟩]) d' := by
  refine hp.step hK hr hl ht hspare henv (fun k j m _ => ?_)
  rw [(env_framed henv).locks hlock hunlock]

theorem Mine.framed (hm : Mine i d₀ held d) (henv : Env True d ⟨i,e,r⟩ d')
    (hlock : ∀ ino mode, e ≠ .lock ino mode) (hunlock : ∀ ino, e ≠ .unlock ino) :
    Mine i d₀ held d' := by
  rw [Mine,(env_framed henv).locks hlock hunlock]
  exact hm

section Preparing

def Quiet (K : Setting) (e : Sys) : Prop :=
  Tidy K e ∧ match e with
    | .symlinkMetadata _ | .mkdir _ | .isDir _ | .openLock _ | .read _ => True
    | _ => False

structure Going (K : Setting) (l : Location) (b : Bytes) (i : ℕ) (d₀ : Disk) (held : Option ℕ)
    (first : Option Uuid) (h : Answers) (d : Disk) : Prop where
  progress : Progress K l b i d₀ h d
  mine : Mine i d₀ held d
  first : firstDraw h = first

theorem Quiet.sparing (hq : Quiet K e) : Sparing K l d₀ d e := by
  obtain ⟨-,hq⟩ := hq
  cases e <;> simp_all [Sparing]

theorem Quiet.going (hK : K.Spaced) (hr : K.Regular l) (hl : K.sites l) {first : Option Uuid}
    (hg : Going K l b i d₀ held first h d) (hq : Quiet K e) (henv : Env True d ⟨i,e,r⟩ d') :
    Going K l b i d₀ held first (h ++ [⟨e,r⟩]) d' := by
  have hlock : ∀ ino mode, e ≠ .lock ino mode := by
    obtain ⟨-,hq⟩ := hq
    cases e <;> simp_all
  have hunlock : ∀ ino, e ≠ .unlock ino := by
    obtain ⟨-,hq⟩ := hq
    cases e <;> simp_all
  have hdraw : drawnIn ⟨e,r⟩ = none := by
    obtain ⟨-,hq⟩ := hq
    cases e <;> first | rfl | exact hq.elim
  refine ⟨hg.progress.framed hK hr hl hq.1 hq.sparing henv hlock hunlock,
    hg.mine.framed henv hlock hunlock,?_⟩
  rw [firstDraw_snoc,hdraw,Option.or_none,hg.first]

abbrev Writing (K : Setting) (l : Location) (b : Bytes) (i : ℕ) (d₀ : Disk) {α : Type}
    (Q : α → Answers → Disk → Prop) (p : Fs α) (h : Answers) (d : Disk) : Prop :=
  Throughout (Env True) i (Progress K l b i d₀) Q p h d

variable {first : Option Uuid} {α : Type}

theorem writing_quiet (hK : K.Spaced) (hr : K.Regular l) (hl : K.sites l) {p : Fs α}
    (hp : p.Only (Quiet K)) (hg : Going K l b i d₀ held first h d) :
    Writing K l b i d₀ (fun _ => Going K l b i d₀ held first) p h d :=
  Throughout.only hp (fun _ _ hg => hg.progress)
    (fun _ _ _ _ _ hq hg henv => hq.going hK hr hl hg henv) hg

theorem quiet_reject (current : Path) (rest : List String) :
    (rejectExistingSymlinks current rest).Only (Quiet K) :=
  only_reject _ _ (fun _ => ⟨trivial,trivial⟩)

theorem quiet_readPath (t : Target) : (readPath t).Only (Quiet K) := by
  refine ⟨⟨trivial,trivial⟩,fun r => ?_⟩
  rcases r with (e | b)
  · cases e <;> trivial
  · trivial

theorem preparePath_going (hK : K.Spaced) (hr : K.Regular l) (hl : K.sites l)
    (hg : Going K l b i d₀ held first h d) :
    Writing K l b i d₀ (fun r h d => Going K l b i d₀ held first h d ∧ ∀ t, r = .ok t → t = K.object l)
      (preparePath ⟨K.root⟩ l).run h d := by
  rw [preparePath,objectPath_bind hr.accepted]
  refine (writing_quiet hK hr hl (quiet_reject _ _) hg).bindExcept (fun _ h d _ hg => ?_)
    (fun _ _ _ _ hg => ⟨hg,by simp⟩)
  rw [parentOf_object hr.accepted]
  have hmake : (io (createDirAll (K.dir l))).run.Only (Quiet K) :=
    only_io (only_createDirAll_under (fun q hq => ⟨.inl ⟨l,hl,hq⟩,trivial⟩)
      (fun _ => ⟨trivial,trivial⟩))
  refine (writing_quiet hK hr hl hmake hg).bindExcept (fun _ h d _ hg => ?_)
    (fun _ _ _ _ hg => ⟨hg,by simp⟩)
  refine (writing_quiet hK hr hl (quiet_reject _ _) hg).bindExcept (fun _ h d hi hg => ?_)
    (fun _ _ _ _ hg => ⟨hg,by simp⟩)
  exact ⟨hi,hg,fun t ht => (Except.ok.inj ht).symm⟩

theorem lock_going (hK : K.Spaced) (hr : K.Regular l) (hl : K.sites l)
    (hg : Going K l b i d₀ none first h d) (mode : LockMode) :
    Writing K l b i d₀ (fun r => match r with
        | .ok _ => Going K l b i d₀ (some file) first
        | .error _ => Going K l b i d₀ none first)
      (io (Program.request (Sys.lock file mode))).run h d := by
  refine ⟨hg.progress,fun r d' henv => ?_⟩
  have hfirst : firstDraw (h ++ [⟨.lock file mode,r⟩]) = first := by
    rw [firstDraw_snoc,hg.first]
    exact Option.or_none
  have hstep := hg.progress.step hK hr hl (show Tidy K (.lock file mode) from trivial)
    (show Sparing K l d₀ d (.lock file mode) by simp [Sparing]) henv
  cases henv with
  | fault _ hf =>
      obtain rfl := Option.some.inj hf
      exact ⟨hstep (fun _ _ _ _ => .rfl),hstep (fun _ _ _ _ => .rfl),hg.mine,hfirst⟩
  | exec he =>
      simp only [Disk.exec] at he
      split at he
      · obtain ⟨rfl,rfl⟩ := Prod.mk.inj (Option.some.inj he)
        have hothers : ∀ k j m, j ≠ i →
            ((j,m) ∈ (d.lock i file mode).locks k ↔ (j,m) ∈ d.locks k) := by
          intro k j m hj
          simp [Disk.mem_lock,hj]
        refine ⟨hstep hothers,hstep hothers,fun hfree k m hm => ?_,hfirst⟩
        rcases Disk.mem_lock.mp hm with ⟨rfl,-⟩ | hm
        · rfl
        · simpa using hg.mine hfree k m hm
      · simp at he

theorem acquire_going (hK : K.Spaced) (hr : K.Regular l) (hl : K.sites l)
    (hg : Going K l b i d₀ none first h d) (mode : LockMode) :
    Writing K l b i d₀ (fun r => match r with
        | .ok ino => Going K l b i d₀ (some ino) first
        | .error _ => Going K l b i d₀ none first)
      (ObjectLock.acquire (lockPath K.root l) mode).run h d := by
  rw [← Setting.lock,ObjectLock.acquire,parentOf_lock]
  have hmake : (io (createDirAll (K.root ++ [lockDir]))).run.Only (Quiet K) :=
    only_io (only_createDirAll_under (fun q hq => ⟨.inr ⟨⟨l,hl⟩,hq⟩,trivial⟩)
      (fun _ => ⟨trivial,trivial⟩))
  refine (writing_quiet hK hr hl hmake hg).bindExcept (fun _ h d _ hg => ?_) (fun _ _ _ _ hg => hg)
  have hopen : (io (Program.request (Sys.openLock (K.lock l)))).run.Only (Quiet K) :=
    only_io (only_request ⟨⟨l,hl,rfl⟩,trivial⟩)
  refine (writing_quiet hK hr hl hopen hg).bindExcept (fun ino h d _ hg => ?_)
    (fun _ _ _ _ hg => hg)
  refine (lock_going hK hr hl hg mode).bindExcept (fun _ h d hi hg => ⟨hi,hg⟩)
    (fun _ _ _ _ hg => hg)

theorem unlock_going (hK : K.Spaced) (hr : K.Regular l) (hl : K.sites l)
    (hg : Going K l b i d₀ (some file) first h d) {d' : Disk}
    (henv : Env True d ⟨i,.unlock file,()⟩ d') :
    Going K l b i d₀ none first (h ++ [⟨.unlock file,()⟩]) d' ∧ d'.kept = d.kept ∧
      d'.data = d.data ∧ d'.synced = d.synced := by
  have hstep := hg.progress.step hK hr hl (show Tidy K (.unlock file) from trivial)
    (show Sparing K l d₀ d (.unlock file) by simp [Sparing]) henv
  cases henv with
  | fault _ hf => simp [Sys.failure] at hf
  | exec he =>
      obtain ⟨-,rfl⟩ := Prod.mk.inj (Option.some.inj he)
      refine ⟨⟨hstep (fun k j m hj => ?_),fun hfree k m hm => ?_,?_⟩,rfl,rfl,rfl⟩
      · simp [Disk.mem_unlock,hj]
      · obtain ⟨hm,hne⟩ := Disk.mem_unlock.mp hm
        obtain rfl := Option.some.inj (hg.mine hfree k m hm)
        exact absurd rfl (hne rfl)
      · rw [firstDraw_snoc,hg.first]
        exact Option.or_none

end Preparing

section Publishing

variable {α : Type} {first : Option Uuid}

theorem Going.framed (hK : K.Spaced) (hr : K.Regular l) (hl : K.sites l)
    (hg : Going K l b i d₀ held first h d) (ht : Tidy K e) (hspare : Sparing K l d₀ d e)
    (henv : Env True d ⟨i,e,r⟩ d') (hlock : ∀ ino mode, e ≠ .lock ino mode)
    (hunlock : ∀ ino, e ≠ .unlock ino) :
    Going K l b i d₀ held (first.or (drawnIn ⟨e,r⟩)) (h ++ [⟨e,r⟩]) d' := by
  refine ⟨hg.progress.framed hK hr hl ht hspare henv hlock hunlock,
    hg.mine.framed henv hlock hunlock,?_⟩
  rw [firstDraw_snoc,hg.first]

structure Drafted (K : Setting) (l : Location) (b : Bytes) (i : ℕ) (d₀ : Disk) (held : Option ℕ)
    (rev id : Uuid) (file : ℕ) (h : Answers) (d : Disk) : Prop where
  going : Going K l b i d₀ held (some rev) h d
  recent : d₀.next ≤ file
  made : file < d.next
  entry : d.entries (K.temporary l id) = some (.file file)
  apart : some (.file file) ∉ d.kept (K.object l).path

theorem createNew_drafted (hK : K.Spaced) (hr : K.Regular l) (hl : K.sites l)
    (hg : Going K l b i d₀ held (some rev) h d) (hne : (K.object l).path ≠ K.temporary l id) :
    Writing K l b i d₀ (fun r h d => match r with
        | .ok ino => Drafted K l b i d₀ held rev id ino h d ∧ d.data ino = []
        | .error _ => Going K l b i d₀ held (some rev) h d)
      (io (Program.request (Sys.createNew (K.temporary l id)))).run h d := by
  refine ⟨hg.progress,fun r d' henv => ?_⟩
  have hstep := hg.framed hK hr hl (show Tidy K (.createNew (K.temporary l id)) from ⟨l,id,hl,rfl⟩)
    (by simp [Sparing,hne]) henv (by simp) (by simp)
  refine ⟨hstep.progress,?_⟩
  cases henv with
  | fault _ hf =>
      obtain rfl := Option.some.inj hf
      exact hstep
  | exec he =>
      have hx : d.createNew i (K.temporary l id) = (r,d') := Option.some.inj he
      have hfound := hg.progress.sane.located hl (temporaryName id)
      rw [← Setting.temporary] at hfound
      rcases hfound with ⟨hloc,-⟩ | ⟨e,hloc⟩
      · simp only [Disk.createNew,hloc,Disk.node_of_ne (Setting.temporary_ne_nil K l id)] at hx
        cases hn : d.entries (K.temporary l id) with
        | some n =>
            simp only [hn] at hx
            obtain ⟨rfl,-⟩ := Prod.mk.inj hx
            exact hstep
        | none =>
            simp only [hn] at hx
            obtain ⟨rfl,rfl⟩ := Prod.mk.inj hx
            refine ⟨⟨hstep,hg.progress.next,Nat.lt_succ_self _,by simp [Disk.newFile,Disk.set],?_⟩,
              by simp [Disk.newFile]⟩
            intro hm
            have hk : some (.file d.next) ∈ d.kept (K.object l).path := by
              simpa [Disk.newFile,Disk.set,hne] using hm
            exact absurd (hg.progress.sane.bounded _ _ hk) (Nat.lt_irrefl _)
      · simp only [Disk.createNew,hloc] at hx
        obtain ⟨rfl,-⟩ := Prod.mk.inj hx
        exact hstep

theorem Drafted.spared (hs : Drafted K l b i d₀ held rev id file h d) {k : ℕ}
    (hk : k < d₀.next ∨ some (.file k) ∈ d.kept (K.object l).path) : file ≠ k := by
  rintro rfl
  rcases hk with hk | hk
  · exact absurd hs.recent (Nat.not_le_of_lt hk)
  · exact hs.apart hk

theorem Drafted.keep (hs : Drafted K l b i d₀ held rev id file h d) {h' : Answers}
    (hg : Going K l b i d₀ held (some rev) h' d') (he : d'.entries = d.entries)
    (hk : d'.kept = d.kept) (hn : d'.next = d.next) : Drafted K l b i d₀ held rev id file h' d' :=
  ⟨hg,hs.recent,by rw [hn]; exact hs.made,by rw [he]; exact hs.entry,by rw [hk]; exact hs.apart⟩

theorem writeAll_drafted (hK : K.Spaced) (hr : K.Regular l) (hl : K.sites l) {bytes : Bytes}
    (hs : Drafted K l b i d₀ held rev id file h d) (hempty : d.data file = []) :
    Writing K l b i d₀ (fun r h d => match r with
        | .ok _ => Drafted K l b i d₀ held rev id file h d ∧ d.data file = bytes ∧
            bytes.length < 2 ^ 63
        | .error _ => Going K l b i d₀ held (some rev) h d)
      (io (Program.request (Sys.writeAll file bytes))).run h d := by
  refine ⟨hs.going.progress,fun r d' henv => ?_⟩
  have hstep := hs.going.framed hK hr hl (show Tidy K (.writeAll file bytes) from trivial)
    ⟨by simp,by simp,by simp,fun k hk => ⟨by simp [hs.spared hk],by simp⟩⟩ henv (by simp) (by simp)
  refine ⟨hstep.progress,?_⟩
  cases henv with
  | fault _ hf =>
      obtain rfl := Option.some.inj hf
      exact hstep
  | shortWrite => exact hstep
  | exec he =>
      simp only [Disk.exec] at he
      split at he
      · rename_i hlen
        obtain ⟨rfl,rfl⟩ := Prod.mk.inj (Option.some.inj he)
        exact ⟨hs.keep hstep rfl rfl rfl,by simp [Disk.append,hempty],hlen⟩
      · simp at he

theorem syncAll_drafted (hK : K.Spaced) (hr : K.Regular l) (hl : K.sites l) {bytes : Bytes}
    (hs : Drafted K l b i d₀ held rev id file h d) (hdata : d.data file = bytes) :
    Writing K l b i d₀ (fun r h d => match r with
        | .ok _ => Drafted K l b i d₀ held rev id file h d ∧ d.data file = bytes ∧
            d.synced file = true
        | .error _ => Going K l b i d₀ held (some rev) h d)
      (io (Program.request (Sys.syncAll file))).run h d := by
  refine ⟨hs.going.progress,fun r d' henv => ?_⟩
  have hstep := hs.going.framed hK hr hl (show Tidy K (.syncAll file) from trivial)
    ⟨by simp,by simp,by simp,fun k hk => ⟨by simp,by simp [hs.spared hk]⟩⟩ henv (by simp) (by simp)
  refine ⟨hstep.progress,?_⟩
  cases henv with
  | fault _ hf =>
      obtain rfl := Option.some.inj hf
      exact hstep
  | exec he =>
      obtain ⟨rfl,rfl⟩ := Prod.mk.inj (Option.some.inj he)
      exact ⟨hs.keep hstep rfl rfl rfl,hdata,by simp [Disk.syncAll]⟩

theorem Sane.rename_ok (hs : Sane K d) (hacc : accepted l.asStr = true) (hl : K.sites l)
    (htmp : d.entries (K.temporary l id) = some (.file file))
    (hother : d.entries (K.object l).path ≠ some (.file file)) {x : Except IoError Unit × Disk}
    (hx : d.rename (K.temporary l id) (K.object l) = x) :
    (∃ e, x = (.error e,d)) ∨ (dirOnly l.asStr = false ∧ d.node (K.dir l) = some .dir ∧
      x = (.ok (),(d.set (K.object l).path (some (.file file))).set (K.temporary l id) none)) := by
  obtain ⟨name,hname,-⟩ := Setting.object_split (K := K) hacc
  have hsource := hs.located hl (temporaryName id)
  have htarget := hs.located hl name
  rw [← Setting.temporary] at hsource
  rw [← hname] at htarget
  subst hx
  rcases hsource with ⟨hsrc,hdir⟩ | ⟨e,hsrc⟩
  · rcases htarget with ⟨htgt,-⟩ | ⟨e,htgt⟩
    · simp only [Disk.rename,hsrc,htgt,Disk.node_of_ne (Setting.temporary_ne_nil K l id),
        Disk.node_of_ne (Setting.object_ne_nil (K := K) hacc),htmp]
      split
      · exact .inl ⟨_,rfl⟩
      · rename_i hplain
        split
        · exact .inl ⟨_,rfl⟩
        · exact .inr ⟨by simpa [Setting.object,join] using hplain,hdir,rfl⟩
    · simp only [Disk.rename,hsrc,htgt]
      exact .inl ⟨_,rfl⟩
  · simp only [Disk.rename,hsrc]
    exact .inl ⟨_,rfl⟩

structure Renewed (K : Setting) (l : Location) (b : Bytes) (i : ℕ) (d₀ : Disk) (held : Option ℕ)
    (rev : Uuid) (file : ℕ) (h : Answers) (d : Disk) : Prop where
  going : Going K l b i d₀ held (some rev) h d
  dir : d.node (K.dir l) = some .dir
  entry : d.entries (K.object l).path = some (.file file)
  complete : Complete l b rev file d

theorem rename_drafted (hK : K.Spaced) (hl : K.sites l)
    (hne : (K.object l).path ≠ K.temporary l id)
    (hs : Drafted K l b i d₀ held rev id file h d) (hsync : d.synced file = true)
    (hdata : decode (d.data file) = .ok ⟨b,revisionVersion rev⟩) :
    Writing K l b i d₀ (fun r h d => match r with
        | .ok _ => Renewed K l b i d₀ held rev file h d
        | .error _ => Going K l b i d₀ held (some rev) h d)
      (io (Program.request (Sys.rename (K.temporary l id) (K.object l)))).run h d := by
  have hp := hs.going.progress
  have hkeep : ∀ r, Going K l b i d₀ held (some rev)
      (h ++ [⟨.rename (K.temporary l id) (K.object l),r⟩]) d := by
    intro r
    have hfirst : firstDraw (h ++ [⟨.rename (K.temporary l id) (K.object l),r⟩]) = some rev := by
      rw [firstDraw_snoc,hs.going.first]
      rfl
    refine ⟨⟨hp.sane,hp.next,hp.drawn,hp.intact,hp.locks,hp.above,fun n hn => ?_⟩,hs.going.mine,
      hfirst⟩
    rcases hp.object n hn with hold | ⟨rev',ino,hf,hn',hc⟩
    · exact .inl hold
    · refine .inr ⟨rev',ino,?_,hn',hc⟩
      rw [hfirst,← hf,hs.going.first]
  refine ⟨hp,fun r d' henv => ?_⟩
  have hsane := sane_step hK hp.sane (show Tidy K (.rename (K.temporary l id) (K.object l)) from
    ⟨l,id,hl,rfl,rfl⟩) henv
  cases henv with
  | fault _ hf =>
      obtain rfl := Option.some.inj hf
      exact ⟨(hkeep _).progress,hkeep _⟩
  | exec he =>
      have hother : d.entries (K.object l).path ≠ some (.file file) := by
        intro hf
        exact hs.apart (hf ▸ hp.sane.current _)
      rcases hp.sane.rename_ok (hK.accepted l hl) hl hs.entry hother (Option.some.inj he) with
        ⟨e,hx⟩ | ⟨hplain,hdir,hx⟩
      · obtain ⟨rfl,rfl⟩ := Prod.mk.inj hx
        exact ⟨(hkeep _).progress,hkeep _⟩
      · obtain ⟨rfl,rfl⟩ := Prod.mk.inj hx
        have hcomplete : Complete l b rev file
            ((d.set (K.object l).path (some (.file file))).set (K.temporary l id) none) :=
          ⟨hplain,hsync,hdata⟩
        have hprogress : Progress K l b i d₀
            (h ++ [⟨.rename (K.temporary l id) (K.object l),.ok ()⟩])
            ((d.set (K.object l).path (some (.file file))).set (K.temporary l id) none) := by
          refine ⟨hsane,hp.next,hp.drawn,hp.intact,hp.locks,fun q hq hql => ?_,fun n hn => ?_⟩
          · have h₁ : q ≠ (K.object l).path := fun he => hK.apart l l hl hl (he ▸ hql)
            have h₂ : q ≠ K.temporary l id := fun he => hK.temporaryApart l l id hl hl (he ▸ hql)
            simpa only [Disk.set,Function.update_of_ne h₁,Function.update_of_ne h₂] using
              hp.above q hq hql
          simp only [Disk.set,Function.update_of_ne hne,Function.update_self,List.mem_cons] at hn
          rcases hn with rfl | hn
          · exact .inr ⟨rev,file,(hkeep _).first,rfl,hcomplete⟩
          · rcases (hkeep (.ok ())).progress.object n hn with hold | ⟨rev',ino,hf,hn',hc⟩
            · exact .inl hold
            · exact .inr ⟨rev',ino,hf,hn',hc.congr rfl rfl⟩
        have hdir' : ((d.set (K.object l).path (some (.file file))).set (K.temporary l id)
            none).node (K.dir l) = some .dir := by
          have h₁ : K.dir l ≠ K.temporary l id := by simp [Setting.temporary]
          have h₂ : K.dir l ≠ (K.object l).path := by
            obtain ⟨name,hname,-⟩ := Setting.object_split (K := K) (hK.accepted l hl)
            simp [hname]
          rw [Disk.node_update rfl h₁,Disk.node_update rfl h₂,hdir]
        exact ⟨hprogress,⟨hprogress,hs.going.mine,(hkeep (.ok ())).first⟩,hdir',
          by simp [Disk.set,hne],hcomplete⟩

theorem Renewed.keep (hn : Renewed K l b i d₀ held rev file h d) {h' : Answers}
    (hg : Going K l b i d₀ held (some rev) h' d') (he : d'.entries = d.entries)
    (hd : d'.data = d.data) (hs : d'.synced = d.synced) :
    Renewed K l b i d₀ held rev file h' d' := by
  refine ⟨hg,?_,by rw [he]; exact hn.entry,hn.complete.congr (by rw [hd]) (by rw [hs])⟩
  rw [← hn.dir]
  simp [Disk.node,he]

theorem openDir_renewed (hK : K.Spaced) (hr : K.Regular l) (hl : K.sites l)
    (hn : Renewed K l b i d₀ held rev file h d) :
    Writing K l b i d₀ (fun r h d => match r with
        | .ok p => p = K.dir l ∧ Renewed K l b i d₀ held rev file h d
        | .error _ => Going K l b i d₀ held (some rev) h d)
      (io (Program.request (Sys.openDir (K.dir l)))).run h d := by
  refine ⟨hn.going.progress,fun r d' henv => ?_⟩
  have hstep := hn.going.framed hK hr hl (show Tidy K (.openDir (K.dir l)) from trivial)
    (by simp [Sparing]) henv (by simp) (by simp)
  refine ⟨hstep.progress,?_⟩
  cases henv with
  | fault _ hf =>
      obtain rfl := Option.some.inj hf
      exact hstep
  | exec he =>
      obtain ⟨rfl,rfl⟩ := Prod.mk.inj (Option.some.inj he)
      have hs := hn.going.progress.sane
      have hcanon : d.canonicalize (K.dir l) = .ok (K.dir l) := by
        simp [Disk.canonicalize,Disk.resolve_dir hs.wf (hs.clearDir hl) hn.dir,hn.dir]
      rw [hcanon] at hstep ⊢
      exact ⟨rfl,hn.keep hstep rfl rfl rfl⟩

structure Landed (K : Setting) (l : Location) (b : Bytes) (i : ℕ) (d₀ : Disk) (held : Option ℕ)
    (rev : Uuid) (h : Answers) (d : Disk) : Prop where
  going : Going K l b i d₀ held (some rev) h d
  kept : ∃ ino, d.kept (K.object l).path = [some (.file ino)] ∧ Complete l b rev ino d

theorem syncDir_renewed (hK : K.Spaced) (hr : K.Regular l) (hl : K.sites l)
    (hn : Renewed K l b i d₀ held rev file h d) :
    Writing K l b i d₀ (fun r h d => match r with
        | .ok _ => Landed K l b i d₀ held rev h d
        | .error _ => Going K l b i d₀ held (some rev) h d)
      (io (Program.request (Sys.syncDir (K.dir l)))).run h d := by
  refine ⟨hn.going.progress,fun r d' henv => ?_⟩
  have hstep := hn.going.framed hK hr hl (show Tidy K (.syncDir (K.dir l)) from trivial)
    (by simp [Sparing]) henv (by simp) (by simp)
  refine ⟨hstep.progress,?_⟩
  cases henv with
  | fault _ hf =>
      obtain rfl := Option.some.inj hf
      exact hstep
  | exec he =>
      obtain ⟨rfl,rfl⟩ := Prod.mk.inj (Option.some.inj he)
      obtain ⟨name,hname,-⟩ := Setting.object_split (K := K) hr.accepted
      refine ⟨hstep,file,?_,hn.complete.congr rfl rfl⟩
      rw [← hn.entry]
      simp [Disk.syncDir,hname]

theorem writeTemporary_lands (hK : K.Spaced) (hr : K.Regular l) (hl : K.sites l)
    (hg : Going K l b i d₀ held (some rev) h d) (hne : (K.object l).path ≠ K.temporary l id) :
    Writing K l b i d₀ (fun r h d => match r with
        | .ok _ => Landed K l b i d₀ held rev h d
        | .error _ => Going K l b i d₀ held (some rev) h d)
      (writeTemporary (K.dir l) (K.temporary l id) (K.object l) (envelope rev b)).run h d := by
  refine (createNew_drafted hK hr hl hg hne).bindExcept (fun file h d _ hs => ?_)
    (fun _ _ _ _ hg => hg)
  refine (writeAll_drafted hK hr hl hs.1 hs.2).bindExcept (fun _ h d _ hw => ?_)
    (fun _ _ _ _ hg => hg)
  obtain ⟨hs,hdata,hlen⟩ := hw
  have hdecode : decode (envelope rev b) = .ok ⟨b,revisionVersion rev⟩ := by
    refine decode_envelope rev ?_
    have hm : MAGIC.length = 8 := rfl
    simp only [envelope,List.length_append,List.length_cons,toBeBytes_length,hm] at hlen
    omega
  refine (syncAll_drafted hK hr hl hs hdata).bindExcept (fun _ h d _ hs => ?_)
    (fun _ _ _ _ hg => hg)
  obtain ⟨hs,hdata,hsync⟩ := hs
  refine (rename_drafted hK hl hne hs hsync (by rw [hdata,hdecode])).bindExcept
    (fun _ h d _ hn => ?_) (fun _ _ _ _ hg => hg)
  refine (openDir_renewed hK hr hl hn).bindExcept (fun p h d _ hn => ?_) (fun _ _ _ _ hg => hg)
  obtain ⟨rfl,hn⟩ := hn
  exact syncDir_renewed hK hr hl hn

theorem draw_going (hK : K.Spaced) (hr : K.Regular l) (hl : K.sites l)
    (hg : Going K l b i d₀ held first h d) :
    Writing K l b i d₀ (fun x h d => Going K l b i d₀ held (first.or (some x)) h d ∧
        d₀.drawn x = none)
      (Program.request Sys.nowV7) h d := by
  refine ⟨hg.progress,fun r d' henv => ?_⟩
  have hstep := hg.framed hK hr hl (show Tidy K .nowV7 from trivial) (by simp [Sparing]) henv
    (by simp) (by simp)
  refine ⟨hstep.progress,hstep,?_⟩
  by_contra hdrawn
  exact hg.progress.drawn r hdrawn (nowV7_env henv).1

theorem removeFile_going (hK : K.Spaced) (hr : K.Regular l) (hl : K.sites l)
    (hne : (K.object l).path ≠ K.temporary l id) (hg : Going K l b i d₀ held first h d)
    {r : Except IoError Unit} (henv : Env True d ⟨i,.removeFile (K.temporary l id),r⟩ d') :
    Going K l b i d₀ held first (h ++ [⟨.removeFile (K.temporary l id),r⟩]) d' := by
  have hstep := hg.framed hK hr hl (show Tidy K (.removeFile (K.temporary l id)) from ⟨l,id,hl,rfl⟩)
    (by simp [Sparing,hne]) henv (by simp) (by simp)
  rwa [show drawnIn ⟨.removeFile (K.temporary l id),r⟩ = none from rfl,Option.or_none] at hstep

def Recorded (l : Location) (d : Disk) : Prop :=
  ∀ id, (names l.asStr).getLast? = some (temporaryName id) → d.drawn id ≠ none

theorem Recorded.object_ne (hr : K.Regular l) (hrec : Recorded l d) (hid : d.drawn id = none) :
    (K.object l).path ≠ K.temporary l id := by
  intro he
  obtain ⟨name,hname,hlast⟩ := Setting.object_split (K := K) hr.accepted
  rw [hname,Setting.temporary] at he
  obtain rfl : name = temporaryName id := by simpa using he
  refine hrec id ?_ hid
  rw [hlast]
  simp

theorem publish_lands (hK : K.Spaced) (hr : K.Regular l) (hl : K.sites l) (hrec : Recorded l d₀)
    (hg : Going K l b i d₀ held (some rev) h d) :
    Writing K l b i d₀ (fun r h d => match r with
        | .ok _ => Landed K l b i d₀ held rev h d
        | .error _ => Going K l b i d₀ held (some rev) h d)
      (publish (K.object l) (envelope rev b)).run h d := by
  rw [publish,parentOf_object hr.accepted]
  refine (draw_going hK hr hl hg).bind (fun id h d _ hd => ?_)
  obtain ⟨hg,hid⟩ := hd
  have hne := hrec.object_ne (K := K) hr hid
  refine (writeTemporary_lands hK hr hl hg hne).bind (fun r h d hi hq => ?_)
  cases r with
  | ok _ => exact ⟨hi,hq⟩
  | error e =>
      refine ⟨hi,fun r d' henv => ?_⟩
      have hgone := removeFile_going hK hr hl hne hq henv
      exact ⟨hgone.progress,hgone⟩

-- What the answer to a write tells: the new object is in place, or the call has come to an end.
def Settled (K : Setting) (l : Location) (b : Bytes) (i : ℕ) (d₀ : Disk) (held : Option ℕ)
    (v : Option Version) (h : Answers) (d : Disk) : Prop :=
  match v with
  | some v => ∃ rev, v = revisionVersion rev ∧ Landed K l b i d₀ held rev h d
  | none => ∃ first, Going K l b i d₀ held first h d

theorem write_settled (hK : K.Spaced) (hr : K.Regular l) (hl : K.sites l) (hrec : Recorded l d₀)
    (hg : Going K l b i d₀ held none h d) :
    Writing K l b i d₀ (fun r => Settled K l b i d₀ held r.toOption)
      (write (K.object l) b).run h d := by
  refine (draw_going hK hr hl hg).bind (fun rev h d _ hd => ?_)
  refine (publish_lands hK hr hl hrec hd.1).bindExcept (fun _ h d hi hq => ?_) (fun _ _ _ _ hq => ?_)
  · exact ⟨hi,rev,rfl,hq⟩
  · exact ⟨some rev,hq⟩

theorem readPath_going (hK : K.Spaced) (hr : K.Regular l) (hl : K.sites l) {ε : Type}
    (wrap : StoreError → ε) (hg : Going K l b i d₀ held first h d) :
    Writing K l b i d₀ (fun _ => Going K l b i d₀ held first)
      (ExceptT.adapt wrap (ExceptT.mk (readPath (K.object l)))).run h d :=
  Throughout.adapt wrap (writing_quiet hK hr hl (quiet_readPath _) hg)

theorem createLocked_settled (hK : K.Spaced) (hr : K.Regular l) (hl : K.sites l)
    (hrec : Recorded l d₀) (hg : Going K l b i d₀ held none h d) :
    Writing K l b i d₀ (fun r => Settled K l b i d₀ held r.toOption)
      (createLocked (K.object l) b) h d := by
  refine (readPath_going hK hr hl _ hg).bindExcept (fun current h d hi hg => ?_)
    (fun _ _ _ _ hg => ⟨none,hg⟩)
  cases current with
  | some o => exact ⟨hi,none,hg⟩
  | none =>
      refine Throughout.adapt _ ((write_settled hK hr hl hrec hg).post (fun r _ _ _ hq => ?_))
      cases r <;> exact hq

theorem replaceLocked_settled (hK : K.Spaced) (hr : K.Regular l) (hl : K.sites l)
    (hrec : Recorded l d₀) (hg : Going K l b i d₀ held none h d) (expected : Version) :
    Writing K l b i d₀ (fun r => Settled K l b i d₀ held r.toOption)
      (replaceLocked (K.object l) expected b) h d := by
  refine (readPath_going hK hr hl _ hg).bindExcept (fun current h d hi hg => ?_)
    (fun _ _ _ _ hg => ⟨none,hg⟩)
  split
  · exact ⟨hi,none,hg⟩
  · refine Throughout.adapt _ ((write_settled hK hr hl hrec hg).post (fun r _ _ _ hq => ?_))
    cases r <;> exact hq

theorem holding_settled (hK : K.Spaced) (hr : K.Regular l) (hl : K.sites l) {ε : Type}
    {body : Fs (Except ε Version)}
    (hbody : Writing K l b i d₀ (fun r => Settled K l b i d₀ (some file) r.toOption) body h d) :
    Writing K l b i d₀ (fun r => Settled K l b i d₀ none r.toOption)
      (ObjectLock.holding file body) h d := by
  refine hbody.bind (fun r h d hi hq => ⟨hi,fun _ d' henv => ?_⟩)
  cases r with
  | error e =>
      obtain ⟨first,hg⟩ := hq
      have hfree := (unlock_going hK hr hl hg henv).1
      exact ⟨hfree.progress,first,hfree⟩
  | ok v =>
      obtain ⟨rev,rfl,hland⟩ := hq
      obtain ⟨hfree,hk,hd,hs⟩ := unlock_going hK hr hl hland.going henv
      obtain ⟨ino,hkept,hc⟩ := hland.kept
      exact ⟨hfree.progress,rev,rfl,hfree,ino,by rw [hk,hkept],hc.congr (by rw [hd]) (by rw [hs])⟩

theorem locking_settled (hK : K.Spaced) (hr : K.Regular l) (hl : K.sites l) {ε : Type}
    (wrap : StoreError → ε) (body : Target → Fs (Except ε Version))
    (hbody : ∀ file h d, Going K l b i d₀ (some file) none h d →
      Writing K l b i d₀ (fun r => Settled K l b i d₀ (some file) r.toOption) (body (K.object l)) h d)
    (hg : Going K l b i d₀ none none h d) :
    Writing K l b i d₀ (fun r => Settled K l b i d₀ none r.toOption)
      (ExceptT.run do
        let path ← ExceptT.adapt wrap (preparePath ⟨K.root⟩ l)
        let lock ← ExceptT.adapt wrap (ObjectLock.acquire (lockPath K.root l) .exclusive)
        ExceptT.mk (ObjectLock.holding lock (body path))) h d := by
  have hprepare : Writing K l b i d₀ (fun r h d => Going K l b i d₀ none none h d ∧
      ∀ t, r = .ok t → t = K.object l)
      (ExceptT.adapt wrap (preparePath ⟨K.root⟩ l)).run h d := by
    refine Throughout.adapt wrap ((preparePath_going hK hr hl hg).post (fun r _ _ _ hq => ?_))
    cases r with
    | ok t => exact ⟨hq.1,fun t' ht => hq.2 t' (by simpa [Except.mapError] using ht)⟩
    | error e => exact ⟨hq.1,fun t ht => by simp [Except.mapError] at ht⟩
  refine hprepare.bindExcept (fun t h d _ hp => ?_) (fun _ _ _ _ hp => ⟨none,hp.1⟩)
  obtain ⟨hg,ht⟩ := hp
  obtain rfl := ht t rfl
  have hacquire : Writing K l b i d₀ (fun r => match r with
        | .ok ino => Going K l b i d₀ (some ino) none
        | .error _ => Going K l b i d₀ none none)
      (ExceptT.adapt wrap (ObjectLock.acquire (lockPath K.root l) .exclusive)).run h d := by
    refine Throughout.adapt wrap ((acquire_going hK hr hl hg .exclusive).post (fun r _ _ _ hq => ?_))
    cases r <;> exact hq
  refine hacquire.bindExcept (fun file h d _ hg => ?_) (fun _ _ _ _ hg => ⟨none,hg⟩)
  exact holding_settled hK hr hl (hbody file h d hg)

def Writes (l : Location) (b : Bytes) (q : Request) : Prop :=
  q = .create l b ∨ ∃ expected, q = .replace l expected b

theorem serve_settled (hK : K.Spaced) (hr : K.Regular l) (hl : K.sites l) (hrec : Recorded l d₀)
    {q : Request} (hq : Writes l b q) (hg : Going K l b i d₀ none none h d) :
    Writing K l b i d₀ (fun o => Settled K l b i d₀ none o.written)
      (q.outcome <$> serve ⟨K.root⟩ q) h d := by
  rcases hq with rfl | ⟨expected,rfl⟩
  · have hcreate := locking_settled hK hr hl CreateError.store (createLocked · b)
      (fun file h d hg => createLocked_settled hK hr hl hrec hg) hg
    refine Throughout.map (Throughout.map (hcreate.post (fun r _ _ _ hs => ?_)))
    rcases r with (_ | _) | v <;> exact hs
  · have hreplace := locking_settled hK hr hl ReplaceError.store (replaceLocked · expected b)
      (fun file h d hg => replaceLocked_settled hK hr hl hrec hg expected) hg
    refine Throughout.map (Throughout.map (hreplace.post (fun r _ _ _ hs => ?_)))
    rcases r with (_ | _) | v <;> exact hs

end Publishing

end Filesystem

end Objsds
