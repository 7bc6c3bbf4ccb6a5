import Objsds.Filesystem.Resolve
import Objsds.Store.Ideal

namespace Objsds

open Foundation

namespace Filesystem

-- A root and the locations in use below it. `old` are the identifiers drawn before, `origin` the
-- file contents and `blank` the other entries that may turn up at a location; calls may fail
-- beyond what a missing file explains only if `lax`.
structure Setting where
  root : Path
  sites : Location → Prop
  old : Uuid → Prop
  origin : Location → Bytes → Prop
  blank : Location → Option Node → Prop
  faults : Prop
  lax : Prop

namespace Setting

variable (K : Setting)

def object (l : Location) : Target := join K.root l

def dir (l : Location) : Path := K.root ++ (names l.asStr).dropLast

def lock (l : Location) : Path := lockPath K.root l

def temporary (l : Location) (id : Uuid) : Path := K.dir l ++ [temporaryName id]

structure Strict : Prop where
  plain : ∀ l, K.sites l → dirOnly l.asStr = false
  apart : ∀ l l', K.sites l → K.sites l' → ¬ (K.object l).path <+: K.dir l'
  lockApart : ∀ l l', K.sites l → K.sites l' → ¬ K.lock l <+: K.dir l'
  temporaryApart : ∀ l l' id, K.sites l → K.sites l' → ¬ K.temporary l id <+: K.dir l'

structure Sound : Prop where
  accepted : ∀ l, K.sites l → accepted l.asStr = true
  separate : ∀ l l', K.sites l → K.sites l' → (K.object l).path = (K.object l').path → l = l'
  notLock : ∀ l l', K.sites l → K.sites l' → (K.object l).path ≠ K.lock l'
  notTemporary : ∀ l l' id, K.sites l → K.sites l' → ¬ K.old id →
    (K.object l).path ≠ K.temporary l' id
  decodes : ∀ l data, K.origin l data → ∃ o, decode data = .ok o
  blankDir : ∀ l l', K.sites l → K.sites l' → (K.object l).path <+: K.dir l' →
    K.blank l (some .dir)
  strict : ¬ K.lax → K.Strict
  reliable : K.faults → K.lax

def LocksApart : Prop := ∀ l l', K.sites l → K.sites l' → ¬ K.lock l <+: K.dir l'

end Setting

namespace Disk

def Holds (d : Disk) (path : Path) (i : ℕ) (mode : LockMode) : Prop :=
  ∃ ino, d.entries path = some (.file ino) ∧ (i,mode) ∈ d.locks ino

def visible (d : Disk) (t : Target) : Option ℕ :=
  if t.dirOnly then none
  else match d.entries t.path with
    | some (.file ino) => some ino
    | _ => none

end Disk

variable (K : Setting)

structure Tree (d : Disk) : Prop where
  wf : d.Wf
  rootDir : d.node K.root = some .dir
  locksDir : d.node (K.root ++ [lockDir]) = some .dir
  clearObject : ∀ l, K.sites l → d.Clear (K.object l).path
  clearLock : ∀ l, K.sites l → d.Clear (K.lock l)
  current : ∀ p, d.entries p ∈ d.kept p
  bounded : ∀ p ino, some (.file ino) ∈ d.kept p → ino < d.next
  ownLock : ∀ l l' ino, K.sites l → K.sites l' → d.entries (K.lock l) = some (.file ino) →
    d.entries (K.lock l') = some (.file ino) → l = l'
  locksKept : K.LocksApart → ∀ l, K.sites l → some .dir ∉ d.kept (K.lock l)
  dirs : ¬ K.lax → ∀ l q ino, K.sites l → q <+: K.dir l → d.entries q ≠ some (.file ino)
  files : ¬ K.lax → ∀ l, K.sites l →
    d.entries (K.object l).path ≠ some .dir ∧ d.entries (K.lock l) ≠ some .dir
  temporaries : ¬ K.lax → ∀ l id, K.sites l → d.drawn id = none →
    d.entries (K.temporary l id) = none

def Setting.Shows (d : Disk) (l : Location) : Option Object → Prop
  | none => d.visible (K.object l) = none
  | some o => ∃ ino, d.visible (K.object l) = some ino ∧ decode (d.data ino) = .ok o

def Setting.Possible (d : Disk) (l : Location) : Option Node → Prop
  | some (.file ino) => d.synced ino = true ∧ K.origin l (d.data ino)
  | n => K.blank l n

structure Inv (d : Disk) (s : Ideal.State) : Prop where
  tree : Tree K d
  idle : ∀ ino, d.next ≤ ino → d.locks ino = []
  exclusive : ∀ ino i, (i,.exclusive) ∈ d.locks ino → d.locks ino = [(i,.exclusive)]
  old : ∀ id, K.old id → d.drawn id ≠ none
  used : ∀ v ∈ s.used, ∃ id, v = revisionVersion id ∧ d.drawn id ≠ none
  issued : s.Issued
  possible : ∀ l, K.sites l → ∀ n ∈ d.kept (K.object l).path, K.Possible d l n
  settled : ∀ l, K.sites l → (∀ i, ¬ d.Holds (K.lock l) i .exclusive) → K.Shows d l (s.objects l)

-- What the other calls may rely on while call `i` takes a step.
structure Guar (i : ℕ) (d : Disk) (s : Ideal.State) (d₁ : Disk) (s₁ : Ideal.State) : Prop where
  dirs : ∀ p, d.node p = some .dir → d₁.node p = some .dir
  lockFile : ∀ l ino, K.sites l → d.entries (K.lock l) = some (.file ino) →
    d₁.entries (K.lock l) = some (.file ino)
  locks : ∀ j mode ino, j ≠ i → ((j,mode) ∈ d₁.locks ino ↔ (j,mode) ∈ d.locks ino)
  objects : ∀ l, K.sites l → ¬ d.Holds (K.lock l) i .exclusive →
    s₁.objects l = s.objects l ∧ ∀ ino, d₁.entries (K.object l).path = some (.file ino) ↔
      d.entries (K.object l).path = some (.file ino)
  kept : ∀ l, K.sites l → ¬ d.Holds (K.lock l) i .exclusive →
    ∀ n ∈ d₁.kept (K.object l).path, n ∈ d.kept (K.object l).path ∨
      (n = some .dir ∧ d.entries (K.object l).path = none)
  published : ∀ l ino, K.sites l → some (.file ino) ∈ d₁.kept (K.object l).path →
    some (.file ino) ∈ d.kept (K.object l).path ∨ d.creator ino = i
  data : ∀ ino, ino < d.next →
    (d.creator ino ≠ i ∨ ∃ l, K.sites l ∧ some (.file ino) ∈ d.kept (K.object l).path) →
    d₁.data ino = d.data ino ∧ d₁.synced ino = d.synced ino
  creator : ∀ ino, ino < d.next → d₁.creator ino = d.creator ino
  next : d.next ≤ d₁.next
  drawn : ∀ id j, d.drawn id = some j → d₁.drawn id = some j
  temporaries : ∀ l id j, K.sites l → ¬ K.old id → d.drawn id = some j → j ≠ i →
    (∀ ino, d.entries (K.temporary l id) = some (.file ino) →
      d₁.entries (K.temporary l id) = some (.file ino)) ∧
    (¬ K.lax → d.entries (K.temporary l id) = none → d₁.entries (K.temporary l id) = none)
  used : ∀ v ∈ s₁.used, v ∈ s.used ∨ ∃ id, v = revisionVersion id ∧ d.drawn id = some i

section Paths

variable {K} {l l' : Location}

theorem Setting.object_path (l : Location) : (K.object l).path = K.root ++ names l.asStr := rfl

theorem Setting.object_split (h : accepted l.asStr = true) :
    ∃ name, (K.object l).path = K.dir l ++ [name] ∧ names l.asStr = (names l.asStr).dropLast ++ [name] := by
  rcases List.eq_nil_or_concat (names l.asStr) with hn | ⟨init,name,hn⟩
  · exact absurd hn (names_ne_nil l h)
  · rw [List.concat_eq_append] at hn
    exact ⟨name,by simp [object_path,dir,hn],by simp [hn]⟩

theorem Setting.dir_prefix (l : Location) : K.dir l <+: (K.object l).path := by
  rw [dir,object_path]
  exact List.prefix_append_right_inj _ |>.mpr (List.dropLast_prefix _)

theorem Setting.lock_ne_temporary (l l' : Location) (id : Uuid) : K.lock l ≠ K.temporary l' id := by
  intro h
  have hl := congrArg List.getLast? h
  simp only [lock,lockPath,temporary,List.getLast?_append,List.getLast?_cons_cons,
    List.getLast?_singleton,Option.some_or,Option.some.injEq] at hl
  exact lockName_ne_temporaryName l id hl

theorem Setting.temporary_inj {id id' : Uuid} (h : K.temporary l id = K.temporary l' id') :
    id = id' := by
  have hl := congrArg List.getLast? h
  simp only [temporary,List.getLast?_append,List.getLast?_singleton,Option.some_or,
    Option.some.injEq] at hl
  exact temporaryName_injective hl

theorem Setting.lock_injective {l l' : Location} (h : K.lock l = K.lock l') : l = l' :=
  lockPath_injective h

end Paths

end Filesystem

end Objsds
