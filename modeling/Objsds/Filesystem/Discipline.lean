import Objsds.Filesystem.Confinement
import Objsds.Foundation.Protocol

namespace Objsds

open Foundation FilesystemStore

namespace Filesystem

-- What a call is about: it holds no lock, it holds one, or it has put its object in place.
inductive Stage where
  | idle
  | held (ino : ℕ)
  | renamed (ino : ℕ)
deriving DecidableEq

def Stage.allows : Stage → Sys → Prop
  | .idle, .unlock _ | .idle, .rename _ _ | .idle, .syncDir _ => False
  | .held _, .lock _ _ | .held _, .syncDir _ => False
  | .held ino, .unlock ino' | .renamed ino, .unlock ino' => ino' = ino
  | .renamed _, .openDir _ | .renamed _, .syncDir _ | .renamed _, .removeFile _ => True
  | .renamed _, _ => False
  | _, _ => True

def Stage.next : Stage → (e : Sys) → SysReply e → Stage
  | .idle, .lock ino _, .ok _ => .held ino
  | .held ino, .rename _ _, _ => .renamed ino
  | _, .unlock _, _ => .idle
  | s, _, _ => s

-- An object is renamed into place under a lock, at most once before the lock is given back, and no
-- directory is synced but after that.
def discipline : Protocol SysReply Stage := ⟨Stage.allows,Stage.next⟩

def Preparatory : Sys → Prop
  | .lock _ _ | .unlock _ | .rename _ _ | .syncDir _ => False
  | _ => True

def Stage.Holds (ino : ℕ) (s : Stage) : Prop := s = .held ino ∨ s = .renamed ino

section Programs

variable {α β ε ε' : Type} {s : Stage} {ino : ℕ} {e : Sys}

theorem Preparatory.neutral (h : Preparatory e) (hs : ∀ ino, s ≠ .renamed ino) :
    discipline.allows s e ∧ ∀ r, discipline.next s e r = s := by
  cases s with
  | renamed ino => exact absurd rfl (hs ino)
  | idle | held ino => cases e <;> first | exact h.elim | exact ⟨trivial,fun _ => rfl⟩

theorem obeys_preparing {p : Fs α} (h : p.Only Preparatory) (hs : ∀ ino, s ≠ .renamed ino) :
    discipline.Obeys (fun _ t => t = s) p s :=
  .only h (fun _ he => he.neutral hs)

theorem obeys_prepared {x : FsResult ε β} {f : β → FsResult ε α} {post : Except ε α → Stage → Prop}
    (hs : ∀ ino, s ≠ .renamed ino) (hx : x.run.Only Preparatory)
    (hok : ∀ b, discipline.Obeys post (f b).run s) (herr : ∀ e, post (.error e) s) :
    discipline.Obeys post (x >>= f).run s := by
  refine (obeys_preparing hx hs).bindExcept (fun b t ht => ?_) (fun e t ht => ?_)
  · rw [ht]
    exact hok b
  · rw [ht]
    exact herr e

theorem preparatory_createDirAll (path : Path) : (io (createDirAll path)).run.Only Preparatory :=
  only_io (only_createDirAll path (fun _ => trivial) (fun _ => trivial))

theorem preparatory_objectPath (root : Path) (l : Location) :
    (objectPath root l).run.Only Preparatory := by
  refine (objectPath_metadata root l).mono (fun e he => ?_)
  obtain ⟨path,rfl⟩ := he
  trivial

theorem preparatory_preparePath (self : FilesystemStore) (l : Location) :
    (self.preparePath l).run.Only Preparatory := by
  refine only_bindExcept (preparatory_objectPath _ _) (fun path => ?_)
  refine only_bindExcept (only_parentOf _) (fun dir => ?_)
  refine only_bindExcept (preparatory_createDirAll dir) (fun _ => ?_)
  exact only_bindExcept (only_reject _ _ (fun _ => trivial)) (fun _ => trivial)

theorem preparatory_readPath (path : Target) : (readPath path).Only Preparatory := by
  refine ⟨trivial,fun r => ?_⟩
  rcases r with (e | b)
  · cases e <;> trivial
  · trivial

theorem obeys_acquire (path : Path) (mode : LockMode) :
    discipline.Obeys (fun r s => match r with
      | .ok ino => s = .held ino
      | .error _ => s = .idle) (ObjectLock.acquire path mode).run .idle := by
  refine obeys_prepared (by simp) (only_parentOf path) (fun dir => ?_) (fun _ => rfl)
  refine obeys_prepared (by simp) (preparatory_createDirAll dir) (fun _ => ?_) (fun _ => rfl)
  refine obeys_prepared (by simp) (only_io (only_request trivial)) (fun ino => ?_) (fun _ => rfl)
  refine ⟨trivial,fun r => ?_⟩
  cases r <;> exact rfl

theorem obeys_holding {body : Fs α} (h : discipline.Obeys (fun _ => Stage.Holds ino) body (.held ino)) :
    discipline.Obeys (fun _ s => s = .idle) (ObjectLock.holding ino body) (.held ino) := by
  refine h.bind (fun a s hs => ?_)
  rcases hs with rfl | rfl <;> exact ⟨rfl,fun _ => rfl⟩

theorem obeys_writeTemporary (dir temporary : Path) (path : Target) (encoded : Bytes) :
    discipline.Obeys (fun _ => Stage.Holds ino) (writeTemporary dir temporary path encoded).run
      (.held ino) := by
  have hs : ∀ k, Stage.held ino ≠ .renamed k := by simp
  refine obeys_prepared hs (only_io (only_request trivial)) (fun file => ?_) (fun _ => .inl rfl)
  refine obeys_prepared hs (only_io (only_request trivial)) (fun _ => ?_) (fun _ => .inl rfl)
  refine obeys_prepared hs (only_io (only_request trivial)) (fun _ => ?_) (fun _ => .inl rfl)
  have hrename : discipline.Obeys (fun _ s => s = .renamed ino)
      (io (Program.request (Sys.rename temporary path))).run (.held ino) := ⟨trivial,fun _ => rfl⟩
  refine hrename.bindExcept (fun _ s hs => ?_) (fun _ _ hs => .inr hs)
  subst hs
  have hopen : discipline.Obeys (fun _ s => s = .renamed ino)
      (io (Program.request (Sys.openDir dir))).run (.renamed ino) := ⟨trivial,fun _ => rfl⟩
  refine hopen.bindExcept (fun opened s hs => ?_) (fun _ _ hs => .inr hs)
  subst hs
  exact ⟨trivial,fun _ => .inr rfl⟩

theorem obeys_publish (path : Target) (encoded : Bytes) :
    discipline.Obeys (fun _ => Stage.Holds ino) (publish path encoded).run (.held ino) := by
  refine obeys_prepared (by simp) (only_parentOf _) (fun dir => ?_) (fun _ => .inl rfl)
  refine ⟨trivial,fun id => ?_⟩
  change discipline.Obeys _
    ((writeTemporary dir (dir ++ [temporaryName id]) path encoded).run >>= _) (.held ino)
  refine (obeys_writeTemporary _ _ _ _).bind (fun r s hs => ?_)
  cases r with
  | ok u => exact hs
  | error e =>
      rcases hs with rfl | rfl
      · exact ⟨trivial,fun _ => .inl rfl⟩
      · exact ⟨trivial,fun _ => .inr rfl⟩

theorem obeys_write (path : Target) (b : Bytes) :
    discipline.Obeys (fun _ => Stage.Holds ino) (write path b).run (.held ino) :=
  ⟨trivial,fun _ => (obeys_publish path _).bindExcept (fun _ _ hs => hs) (fun _ _ hs => hs)⟩

theorem obeys_createLocked (path : Target) (b : Bytes) :
    discipline.Obeys (fun _ => Stage.Holds ino) (createLocked path b) (.held ino) := by
  refine obeys_prepared (by simp) (only_adapt _ (preparatory_readPath path)) (fun current => ?_)
    (fun _ => .inl rfl)
  cases current with
  | some o => exact .inl rfl
  | none => exact .adapt _ (obeys_write path b)

theorem obeys_replaceLocked (path : Target) (expected : Version) (b : Bytes) :
    discipline.Obeys (fun _ => Stage.Holds ino) (replaceLocked path expected b) (.held ino) := by
  refine obeys_prepared (by simp) (only_adapt _ (preparatory_readPath path)) (fun current => ?_)
    (fun _ => .inl rfl)
  split
  · exact .inl rfl
  · exact .adapt _ (obeys_write path b)

theorem obeys_locking {wrap : StoreError → ε} {body : Target → Fs (Except ε α)}
    (self : FilesystemStore) (l : Location)
    (h : ∀ path ino, discipline.Obeys (fun _ => Stage.Holds ino) (body path) (.held ino)) :
    discipline.Obeys (fun _ s => s = .idle) (ExceptT.run do
      let path ← ExceptT.adapt wrap (self.preparePath l)
      let lock ← ExceptT.adapt wrap (ObjectLock.acquire (lockPath self.root l) .exclusive)
      ExceptT.mk (ObjectLock.holding lock (body path))) .idle := by
  refine obeys_prepared (by simp) (only_adapt _ (preparatory_preparePath self l)) (fun path => ?_)
    (fun _ => rfl)
  have hlock : discipline.Obeys (fun r s => match r with
      | .ok ino => s = .held ino
      | .error _ => s = .idle)
      (ExceptT.adapt wrap (ObjectLock.acquire (lockPath self.root l) .exclusive)).run .idle := by
    refine .adapt _ ((obeys_acquire _ _).mono (fun r s hs => ?_))
    cases r <;> exact hs
  refine hlock.bindExcept (fun ino s hs => ?_) (fun _ _ hs => hs)
  subst hs
  exact obeys_holding (h path ino)

theorem obeys_serve (self : FilesystemStore) (q : Request) :
    discipline.Obeys (fun _ s => s = .idle) (self.serve q) .idle := by
  cases q with
  | get l =>
      refine obeys_prepared (by simp) (preparatory_objectPath _ _) (fun path => ?_) (fun _ => rfl)
      refine (obeys_acquire _ _).bindExcept (fun ino s hs => ?_) (fun _ _ hs => hs)
      subst hs
      refine obeys_holding ((obeys_preparing (preparatory_readPath path) (by simp)).mono ?_)
      exact fun _ _ hs => .inl hs
  | create l b => exact .map (obeys_locking self l (fun path _ => obeys_createLocked path b))
  | replace l x b => exact .map (obeys_locking self l (fun path _ => obeys_replaceLocked path x b))

theorem obeys_perform (self : FilesystemStore) (A : Action StoreError α) :
    discipline.Obeys (fun _ s => s = .idle) (self.perform A) .idle := by
  induction A with
  | done a => exact rfl
  | perform e next ih =>
      cases e with
      | store q =>
          refine (obeys_serve self q).bind (fun r s hs => ?_)
          rw [hs]
          exact ih r
      | nowMillis | nowV7 => exact ⟨trivial,ih⟩

end Programs

end Filesystem

end Objsds
