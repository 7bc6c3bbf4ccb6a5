import Objsds.Filesystem.Resolve
import Objsds.Filesystem.Store
import Objsds.Filesystem.Calls

namespace Objsds

open Foundation FilesystemStore

namespace Filesystem

namespace Disk

variable {d d' : Disk} {p q : Path} {n : Option Node}

section Shape

def Above (d : Disk) (p : Path) : Prop := p = [] ∨ d.node p.dropLast = some .dir

theorem walk_above {follow : Path → List String → Except IoError Path} {base : Path}
    {rest : List String} (hfollow : ∀ t rest p, follow t rest = .ok p → d.Above p)
    (hbase : d.node base = some .dir) (habove : d.Above base)
    (h : walk d.entries follow base rest = .ok p) : d.Above p := by
  induction rest generalizing base with
  | nil => exact Except.ok.inj h ▸ habove
  | cons c rest ih =>
      have hchild : d.Above (base ++ [c]) := .inr (by simpa using hbase)
      rw [walk] at h
      cases he : d.entries (base ++ [c]) with
      | none =>
          simp only [he] at h
          split at h
          · exact Except.ok.inj h ▸ hchild
          · simp at h
      | some node =>
          simp only [he] at h
          cases node with
          | dir => exact ih (by simpa using he) hchild h
          | link t => exact hfollow t rest p h
          | file ino =>
              simp only at h
              split at h
              · exact Except.ok.inj h ▸ hchild
              · simp at h

theorem follow_above {links : ℕ} {path : List String}
    (h : follow d.entries links path = .ok p) : d.Above p := by
  induction links generalizing path p with
  | zero => exact walk_above (by simp) rfl (.inl rfl) h
  | succ links ih => exact walk_above (fun t rest p hp => ih hp) rfl (.inl rfl) h

theorem locate_above {path : Path} (h : d.locate path = .ok p) : d.Above p := by
  unfold locate at h
  split at h
  · exact .inl (Except.ok.inj h).symm
  · split at h
    · simp at h
    · split at h
      · rename_i hdir
        rw [← Except.ok.inj h]
        exact .inr (by simpa using hdir)
      · simp at h
      · simp at h

def NoNewLinks (d d' : Disk) : Prop :=
  ∀ q t, d'.entries q = some (.link t) → d.entries q = some (.link t)

theorem NoNewLinks.clear (h : NoNewLinks d d') (hc : d.Clear p) : d'.Clear p :=
  fun q hq t ht => hc q hq t (h q t ht)

theorem wf_update (hw : d.Wf) (he : d'.entries = Function.update d.entries p n) (hp : p ≠ [])
    (habove : n ≠ none → d.node p.dropLast = some .dir) (hnode : d.node p ≠ some .dir) : d'.Wf := by
  have hother : ∀ x, x ≠ p → d'.node x = d.node x := by
    intro x hx
    simp [node,he,hx]
  intro x c hx
  by_cases hxp : x ++ [c] = p
  · subst hxp
    have hn : n ≠ none := by
      rwa [he,Function.update_self] at hx
    rw [hother x (by simp)]
    simpa using habove hn
  · rw [he,Function.update_of_ne hxp] at hx
    have hdir := hw x c hx
    have hne : x ≠ p := by
      rintro rfl
      exact hnode hdir
    rw [hother x hne]
    exact hdir

theorem noNewLinks_update (he : d'.entries = Function.update d.entries p n)
    (hn : ∀ t, n ≠ some (.link t)) : NoNewLinks d d' := by
  intro q t hq
  by_cases hqp : q = p
  · subst hqp
    rw [he,Function.update_self] at hq
    exact absurd hq (hn t)
  · rwa [he,Function.update_of_ne hqp] at hq

structure Grown (d d' : Disk) : Prop where
  wf : d.Wf → d'.Wf
  links : NoNewLinks d d'

theorem Grown.refl (d : Disk) : Grown d d := ⟨id,fun _ _ h => h⟩

theorem Grown.of_entries (h : d'.entries = d.entries) : Grown d d' := by
  have hnode : ∀ x, d'.node x = d.node x := fun x => by simp [node,h]
  refine ⟨fun hw x c hx => ?_,fun q t hq => by rwa [h] at hq⟩
  rw [hnode]
  exact hw x c (by rwa [h] at hx)

theorem Grown.trans {d'' : Disk} (h : Grown d d') (h' : Grown d' d'') : Grown d d'' :=
  ⟨fun hw => h'.wf (h.wf hw),fun q t hq => h.links q t (h'.links q t hq)⟩

theorem Grown.update (he : d'.entries = Function.update d.entries p n) (hp : p ≠ [])
    (habove : n ≠ none → d.node p.dropLast = some .dir) (hnode : d.node p ≠ some .dir)
    (hn : ∀ t, n ≠ some (.link t)) : Grown d d' :=
  ⟨fun hw => wf_update hw he hp habove hnode,noNewLinks_update he hn⟩

theorem Above.dropLast (h : d.Above p) (hn : d.node p ≠ some .dir) :
    p ≠ [] ∧ d.node p.dropLast = some .dir := by
  rcases h with rfl | h
  · exact absurd rfl hn
  · refine ⟨?_,h⟩
    rintro rfl
    exact hn rfl

end Shape

section Exec

theorem mkdir_grown (path : Path) : Grown d (d.mkdir path).2 := by
  unfold mkdir
  split
  · exact .refl d
  · rename_i p hp
    cases hn : d.node p with
    | some node => exact .refl d
    | none =>
        obtain ⟨hne,hdir⟩ := (locate_above hp).dropLast (by simp [hn])
        exact .update rfl hne (fun _ => hdir) (by simp [hn]) (by simp)

theorem newFile_grown {i : ℕ} (h : d.Above p) (hn : d.node p = none) : Grown d (d.newFile i p) := by
  obtain ⟨hne,hdir⟩ := h.dropLast (by simp [hn])
  exact .update rfl hne (fun _ => hdir) (by simp [hn]) (by simp)

theorem openLock_grown (i : ℕ) (path : Path) : Grown d (d.openLock i path).2 := by
  unfold openLock
  split
  · exact .refl d
  · rename_i p hp
    split
    · exact .refl d
    · exact .refl d
    · exact .refl d
    · exact newFile_grown (follow_above hp) ‹_›

theorem createNew_grown (i : ℕ) (path : Path) : Grown d (d.createNew i path).2 := by
  unfold createNew
  split
  · exact .refl d
  · rename_i p hp
    split
    · exact .refl d
    · exact newFile_grown (locate_above hp) ‹_›

theorem removeFile_grown (path : Path) : Grown d (d.removeFile path).2 := by
  unfold removeFile
  split
  · exact .refl d
  · rename_i p hp
    cases hn : d.node p with
    | none => exact .refl d
    | some node =>
        cases node with
        | dir => exact .refl d
        | file ino | link t =>
            obtain ⟨hne,-⟩ := (locate_above hp).dropLast (by simp [hn])
            exact .update rfl hne (by simp) (by simp [hn]) (by simp)

theorem rename_grown (source : Path) (target : Target) : Grown d (d.rename source target).2 := by
  unfold rename
  split
  · exact .refl d
  · exact .refl d
  · rename_i p q hp hq
    split
    · exact .refl d
    · rename_i ino hn
      split
      · exact .refl d
      · split
        · exact .refl d
        · rename_i hdir
          split
          · exact .refl d
          · obtain ⟨hne,habove⟩ := (locate_above hq).dropLast hdir
            obtain ⟨hpne,-⟩ := (locate_above hp).dropLast (by simp [hn])
            have hput : Grown d (d.set q (some (.file ino))) :=
              .update rfl hne (fun _ => habove) hdir (by simp)
            have hnot : (d.set q (some (.file ino))).node p ≠ some .dir := by
              by_cases hpq : p = q
              · subst hpq
                simp [node,set,hne]
              · rw [node_of_ne hpne] at hn ⊢
                simp [set,hpq,hn]
            exact hput.trans (.update rfl hpne (by simp) hnot (by simp))
    · exact .refl d

theorem exec_grown {i : ℕ} {e : Sys} {r : SysReply e} (h : d.exec i e = some (r,d')) :
    Grown d d' := by
  have hsame : ∀ {x : SysReply e × Disk}, some x = some (r,d') → x.2 = d' := by
    intro x hx
    rw [Option.some.inj hx]
  cases e with
  | mkdir path => exact hsame h ▸ mkdir_grown path
  | openLock path => exact hsame h ▸ openLock_grown i path
  | createNew path => exact hsame h ▸ createNew_grown i path
  | removeFile path => exact hsame h ▸ removeFile_grown path
  | rename source target => exact hsame h ▸ rename_grown source target
  | nowV7 | nowMillis => simp [exec] at h
  | lock ino mode | writeAll ino bytes =>
      simp only [exec] at h
      split at h
      · exact hsame h ▸ .of_entries rfl
      · simp at h
  | _ => exact hsame h ▸ .of_entries rfl

end Exec

end Disk

variable {faults : Prop} {d d' : Disk} {p : Path} {i : ℕ}

theorem Env.grown {ev : Event SysReply} (h : Env faults d ev d') : Disk.Grown d d' := by
  cases h with
  | exec he => exact Disk.exec_grown he
  | nowMillis => exact .refl d
  | nowV7 => exact .of_entries rfl
  | fault => exact .refl d
  | shortWrite => exact .of_entries rfl

-- An answer to `symlinkMetadata` on a disk that does not change meanwhile.
def Tells (faults : Prop) (d : Disk) (x : Sigma SysReply) : Prop :=
  ∃ path r, x = ⟨.symlinkMetadata path,r⟩ ∧
    (r = d.symlinkMetadata path ∨ faults ∧ r = .error .other)

theorem Env.tells {path : Path} {r : Except IoError FileType}
    (h : Env faults d ⟨i,.symlinkMetadata path,r⟩ d') :
    d' = d ∧ Tells faults d ⟨.symlinkMetadata path,r⟩ := by
  cases h with
  | exec he =>
      obtain ⟨rfl,rfl⟩ := Prod.mk.inj (Option.some.inj he)
      exact ⟨rfl,path,_,rfl,.inl rfl⟩
  | fault hf he =>
      obtain rfl := Option.some.inj he
      exact ⟨rfl,path,_,rfl,.inr ⟨hf,rfl⟩⟩

section Check

theorem symlinkMetadata_child (hw : d.Wf) (c : String) (hc : d.Clear p)
    (hp : d.node p = some .dir) : d.symlinkMetadata (p ++ [c]) =
      match d.entries (p ++ [c]) with
      | none => .error .notFound
      | some .dir => .ok .dir
      | some (.file _) => .ok .file
      | some (.link _) => .ok .symlink := by
  cases hn : d.entries (p ++ [c]) with
  | none => simp [Disk.symlinkMetadata,Disk.locate_child hw c hc hp,hn]
  | some node => cases node <;> simp [Disk.symlinkMetadata,Disk.locate_child hw c hc hp,hn]

theorem Disk.Clear.snoc {c : String} (h : d.Clear p) (hc : ∀ t, d.entries (p ++ [c]) ≠ some (.link t)) :
    d.Clear (p ++ [c]) := by
  intro q hq t
  rcases List.prefix_concat_iff.mp (by simpa using hq) with rfl | hq
  · exact hc t
  · exact h q hq t

theorem Disk.Clear.bare {rest : List String} (h : d.Clear p)
    (hnone : ∀ s, s ≠ [] → s <+: rest → d.entries (p ++ s) = none) : d.Clear (p ++ rest) := by
  intro q hq t ht
  rcases List.prefix_or_prefix_of_prefix hq (List.prefix_append p rest) with hqp | ⟨s,rfl⟩
  · exact h q hqp t ht
  · by_cases hs : s = []
    · subst hs
      exact h (p ++ []) (by simp) t ht
    · rw [hnone s hs ((List.prefix_append_right_inj p).mp hq)] at ht
      simp at ht

theorem Disk.Clear.barred {c : String} {rest : List String} (hw : d.Wf) (h : d.Clear p)
    (hc : d.entries (p ++ [c]) = none ∨ ∃ ino, d.entries (p ++ [c]) = some (.file ino)) :
    d.Clear (p ++ c :: rest) := by
  have hsnoc : d.Clear (p ++ [c]) := h.snoc (fun t ht => by simp [ht] at hc)
  rw [List.append_cons]
  refine hsnoc.bare (fun s hs _ => ?_)
  rcases hc with hnone | ⟨ino,hfile⟩
  · exact hw.under_none hs hnone (by simp)
  · exact hw.under_file hs hfile (by simp)

theorem Tells.inv {path : Path} {r : Except IoError FileType}
    (h : Tells faults d ⟨.symlinkMetadata path,r⟩) :
    r = d.symlinkMetadata path ∨ faults ∧ r = .error .other := by
  obtain ⟨path',r',heq,hr⟩ := h
  cases heq
  exact hr

theorem reject_length {rest : List String} {h : List (Sigma SysReply)}
    {m : Fs (Except StoreError Unit)} (hf : (rejectExistingSymlinks p rest).Follows h m) :
    h.length ≤ rest.length := by
  induction rest generalizing p h with
  | nil => simp [(Program.follows_done.mp hf).1]
  | cons c rest ih =>
      rcases Program.follows_perform.mp hf with ⟨rfl,-⟩ | ⟨r,h',rfl,hf'⟩
      · simp
      · have hdone : ∀ {a}, (Program.done a : Fs (Except StoreError Unit)).Follows h' m →
            h'.length ≤ rest.length := by
          intro a ha
          simp [(Program.follows_done.mp ha).1]
        simp only [List.length_cons,Nat.add_le_add_iff_right]
        revert hf'
        rcases r with (e | t)
        · cases e <;> exact hdone
        · cases t with
          | symlink => exact hdone
          | dir | file => exact ih

-- The walk stops early only below a file or where nothing is left of the path.
theorem reject_clear {rest : List String} {h : List (Sigma SysReply)} (hw : d.Wf)
    (ht : ∀ x ∈ h, Tells faults d x) (hc : d.Clear p) (hp : d.node p = some .dir)
    (hf : (rejectExistingSymlinks p rest).Follows h (.done (.ok ()))) : d.Clear (p ++ rest) := by
  induction rest generalizing p h with
  | nil => simpa using hc
  | cons c rest ih =>
      rcases Program.follows_perform.mp hf with ⟨-,hd⟩ | ⟨r,h',rfl,hf'⟩
      · simp at hd
      · obtain ⟨htr,ht'⟩ := List.forall_mem_cons.mp ht
        rcases htr.inv with rfl | ⟨-,rfl⟩
        · rw [symlinkMetadata_child hw c hc hp] at hf'
          cases he : d.entries (p ++ [c]) with
          | none => exact hc.barred hw (.inl he)
          | some node =>
              rw [he] at hf'
              cases node with
              | file ino => exact hc.barred hw (.inr ⟨ino,he⟩)
              | link t =>
                  have hd := (Program.follows_done.mp hf').2
                  simp at hd
              | dir =>
                  rw [List.append_cons]
                  exact ih ht' (hc.snoc (by simp [he])) (by simpa using he) hf'
        · have hd := (Program.follows_done.mp hf').2
          simp at hd

theorem reject_link {rest s : List String} {t : Path} {h : List (Sigma SysReply)}
    {a : Except StoreError Unit} (hw : d.Wf) (ht : ∀ x ∈ h, Tells faults d x) (hc : d.Clear p)
    (hp : d.node p = some .dir) (hs : s ≠ []) (hpre : s <+: rest)
    (hlink : d.entries (p ++ s) = some (.link t))
    (hf : (rejectExistingSymlinks p rest).Follows h (.done a)) :
    ∃ e, a = .error e ∧ (¬ faults → e = .invalidLocation) := by
  induction rest generalizing p s h with
  | nil => exact absurd (List.prefix_nil.mp hpre) hs
  | cons c rest ih =>
      obtain ⟨x,s,rfl⟩ := List.exists_cons_of_ne_nil hs
      obtain ⟨rfl,hsub⟩ := List.cons_prefix_cons.mp hpre
      rcases Program.follows_perform.mp hf with ⟨-,hd⟩ | ⟨r,h',rfl,hf'⟩
      · simp at hd
      · obtain ⟨htr,ht'⟩ := List.forall_mem_cons.mp ht
        rcases htr.inv with rfl | ⟨hfault,rfl⟩
        · rw [symlinkMetadata_child hw x hc hp] at hf'
          by_cases hne : s = []
          · subst hne
            rw [hlink] at hf'
            obtain ⟨-,ha⟩ := Program.follows_done.mp hf'
            exact ⟨_,Program.done.inj ha,fun _ => rfl⟩
          · rw [List.append_cons] at hlink
            have hdir : d.node (p ++ [x]) = some .dir := hw.below hne (by rw [hlink]; simp)
            have he : d.entries (p ++ [x]) = some .dir := by simpa using hdir
            rw [he] at hf'
            exact ih ht' (hc.snoc (by simp [he])) hdir hne hsub hlink hf'
        · obtain ⟨-,ha⟩ := Program.follows_done.mp hf'
          exact ⟨_,Program.done.inj ha,fun hn => absurd hfault hn⟩

end Check

section Serving

variable {ε ε' α β : Type} {P : Sys → Prop}

theorem only_bindExcept {x : FsResult ε α} {f : α → FsResult ε β} (hx : x.run.Only P)
    (hf : ∀ a, (f a).run.Only P) : (x >>= f).run.Only P := by
  refine hx.bind (fun a => ?_)
  cases a with
  | ok a => exact hf a
  | error e => trivial

theorem only_adapt {x : FsResult ε α} (wrap : ε → ε') (hx : x.run.Only P) :
    (ExceptT.adapt wrap x).run.Only P :=
  Program.Only.map hx

theorem only_io {p : Fs (Except IoError α)} (hp : p.Only P) : (io p).run.Only P :=
  Program.Only.map hp

theorem only_request {e : Sys} (he : P e) : (Program.request e : Fs _).Only P :=
  ⟨he,fun _ => trivial⟩

theorem only_reject (p : Path) (rest : List String)
    (hP : ∀ path, P (.symlinkMetadata path)) : (rejectExistingSymlinks p rest).Only P := by
  induction rest generalizing p with
  | nil => trivial
  | cons c rest ih =>
      refine ⟨hP _,fun r => ?_⟩
      rcases r with (e | t)
      · cases e <;> trivial
      · cases t with
        | symlink => trivial
        | dir | file => exact ih _

theorem only_orExisting (path : Path) (e : IoError) (hdir : ∀ path, P (.isDir path)) :
    (orExisting path e).Only P := by
  refine ⟨hdir _,fun r => ?_⟩
  cases r <;> trivial

theorem only_createDirAll (path : Path) (hmake : ∀ path, P (.mkdir path))
    (hdir : ∀ path, P (.isDir path)) : (createDirAll path).Only P := by
  rw [createDirAll]
  induction path.reverse with
  | nil =>
      refine ⟨hmake _,fun r => ?_⟩
      rcases r with (e | u)
      · cases e <;> first | trivial | exact only_orExisting _ _ hdir
      · trivial
  | cons c up ih =>
      refine ⟨hmake _,fun r => ?_⟩
      rcases r with (e | u)
      · cases e with
        | notFound =>
            refine ih.bind (fun a => ?_)
            rcases a with (e | u)
            · trivial
            · refine ⟨hmake _,fun r => ?_⟩
              rcases r with (e | u)
              · exact only_orExisting _ _ hdir
              · trivial
        | _ => exact only_orExisting _ _ hdir
      · trivial

theorem only_parentOf (path : Path) : (parentOf path).run.Only P := by
  rw [parentOf]
  cases parent path <;> trivial

-- The object is read and replaced through this path and no other.
def Through (target : Target) : Sys → Prop
  | .read t => t = target
  | .rename _ t => t = target
  | _ => True

variable {target : Target}

theorem createDirAll_through (path : Path) : (createDirAll path).Only (Through target) :=
  only_createDirAll path (fun _ => trivial) (fun _ => trivial)

theorem acquire_through (path : Path) (mode : LockMode) :
    (ObjectLock.acquire path mode).run.Only (Through target) := by
  refine only_bindExcept (only_parentOf path) (fun dir => ?_)
  refine only_bindExcept (only_io (createDirAll_through _)) (fun _ => ?_)
  refine only_bindExcept (only_io (only_request trivial)) (fun file => ?_)
  exact only_bindExcept (only_io (only_request trivial)) (fun _ => trivial)

theorem holding_through {ino : ℕ} {body : Fs α} (h : body.Only (Through target)) :
    (ObjectLock.holding ino body).Only (Through target) :=
  h.bind (fun _ => ⟨trivial,fun _ => trivial⟩)

theorem readPath_through : (readPath target).Only (Through target) := by
  refine ⟨rfl,fun r => ?_⟩
  rcases r with (e | b)
  · cases e <;> trivial
  · trivial

theorem publish_through (encoded : Bytes) :
    (publish target encoded).run.Only (Through target) := by
  refine only_bindExcept (only_parentOf _) (fun dir => ?_)
  refine only_bindExcept ⟨trivial,fun _ => trivial⟩ (fun id => ?_)
  refine Program.Only.bind ?_ (fun r => ?_)
  · refine only_bindExcept (only_io (only_request trivial)) (fun file => ?_)
    refine only_bindExcept (only_io (only_request trivial)) (fun _ => ?_)
    refine only_bindExcept (only_io (only_request trivial)) (fun _ => ?_)
    refine only_bindExcept (only_io (only_request rfl)) (fun _ => ?_)
    refine only_bindExcept (only_io (only_request trivial)) (fun opened => ?_)
    exact only_io (only_request trivial)
  · rcases r with (e | u)
    · exact ⟨trivial,fun _ => trivial⟩
    · trivial

theorem write_through (bytes : Bytes) : (write target bytes).run.Only (Through target) := by
  refine only_bindExcept ⟨trivial,fun _ => trivial⟩ (fun encoded => ?_)
  exact only_bindExcept (publish_through _) (fun _ => trivial)

theorem createLocked_through (bytes : Bytes) :
    (createLocked target bytes).Only (Through target) := by
  refine only_bindExcept (only_adapt _ readPath_through) (fun current => ?_)
  cases current with
  | some o => trivial
  | none => exact only_adapt _ (write_through bytes)

theorem replaceLocked_through (expected : Version) (bytes : Bytes) :
    (replaceLocked target expected bytes).Only (Through target) := by
  refine only_bindExcept (only_adapt _ readPath_through) (fun current => ?_)
  split
  · trivial
  · exact only_adapt _ (write_through bytes)

theorem adapt_bind (wrap : ε → ε') (x : FsResult ε α) (f : α → FsResult ε β) :
    ExceptT.adapt wrap (x >>= f) = ExceptT.adapt wrap x >>= fun a => ExceptT.adapt wrap (f a) := by
  refine ExceptT.ext ?_
  change Except.mapError wrap <$> (x.run >>= _) = (Except.mapError wrap <$> x.run) >>= _
  rw [map_bind,bind_map_left]
  refine bind_congr (fun r => ?_)
  cases r <;> rfl

theorem adapt_bind_run (wrap : ε → ε') (x : FsResult ε α) (f : α → FsResult ε' β) :
    (ExceptT.adapt wrap x >>= f).run = x.run >>= fun r =>
      match r with
      | .ok a => (f a).run
      | .error e => .done (.error (wrap e)) := by
  change (Except.mapError wrap <$> x.run) >>= _ = _
  rw [bind_map_left]
  refine bind_congr (fun r => ?_)
  cases r <;> rfl

theorem adapt_pure (wrap : ε → ε') (a : α) :
    ExceptT.adapt wrap (pure a : FsResult ε α) = pure a := rfl

theorem write_shape (self : FilesystemStore) (l : Location) (wrap : StoreError → ε')
    {body : Target → Fs (Except ε' β)} (hbody : ∀ t, (body t).Only (Through t)) :
    ∃ F : Except StoreError Target → Fs (Except ε' β),
      (ExceptT.run do
        let path ← ExceptT.adapt wrap (self.preparePath l)
        let lock ← ExceptT.adapt wrap (ObjectLock.acquire (lockPath self.root l) .exclusive)
        ExceptT.mk (ObjectLock.holding lock (body path))) =
          (objectPath self.root l).run >>= F ∧
      (∀ e, F (.error e) = .done (.error (wrap e))) ∧ ∀ t, (F (.ok t)).Only (Through t) := by
  simp only [preparePath,adapt_bind,bind_assoc,adapt_pure,pure_bind]
  refine ⟨_,adapt_bind_run wrap _ _,fun e => rfl,fun t => ?_⟩
  refine only_bindExcept (only_adapt wrap (only_parentOf _)) (fun dir => ?_)
  refine only_bindExcept (only_adapt wrap (only_io (createDirAll_through _))) (fun _ => ?_)
  refine only_bindExcept (only_adapt wrap (only_reject _ _ (fun _ => trivial))) (fun _ => ?_)
  refine only_bindExcept (only_adapt wrap (acquire_through _ _)) (fun ino => ?_)
  exact holding_through (hbody t)

theorem serve_eq (self : FilesystemStore) (rq : Request) :
    ∃ F : Except StoreError Target → Fs (rq.Response StoreError),
      self.serve rq = (objectPath self.root rq.location).run >>= F ∧
      (∀ e, F (.error e) = .done (rq.failed e)) ∧ ∀ t, (F (.ok t)).Only (Through t) := by
  cases rq with
  | get l =>
      refine ⟨_,rfl,fun e => rfl,fun t => ?_⟩
      refine only_bindExcept (acquire_through _ _) (fun ino => ?_)
      exact holding_through readPath_through
  | create l b =>
      obtain ⟨F,hF,herr,honly⟩ := write_shape self l CreateError.store
        (fun t => @createLocked_through t b)
      refine ⟨fun r => CreateReply.ofResult <$> F r,?_,fun e => ?_,fun t => (honly t).map⟩
      · rw [serve,FilesystemStore.create,hF,map_bind]
        rfl
      · exact congrArg (CreateReply.ofResult <$> ·) (herr e)
  | replace l x b =>
      obtain ⟨F,hF,herr,honly⟩ := write_shape self l ReplaceError.store
        (fun t => @replaceLocked_through t x b)
      refine ⟨fun r => ReplaceReply.ofResult <$> F r,?_,fun e => ?_,fun t => (honly t).map⟩
      · rw [serve,FilesystemStore.replace,hF,map_bind]
        rfl
      · exact congrArg (ReplaceReply.ofResult <$> ·) (herr e)

end Serving

section Runs

variable {α : Type} {c c' : Config Disk SysReply α} {tr : Trace SysReply} {rq : Request}
  {self : FilesystemStore} {l : Location}

def Metadata (e : Sys) : Prop := ∃ path, e = .symlinkMetadata path

theorem objectPath_metadata (root : Path) (l : Location) :
    (objectPath root l).run.Only Metadata := by
  rw [objectPath]
  split
  · exact only_bindExcept (only_reject _ _ (fun path => ⟨path,rfl⟩)) (fun _ => trivial)
  · trivial

theorem objectPath_eq (root : Path) (h : accepted l.asStr = true) :
    (objectPath root l).run =
      Except.map (fun _ => join root l) <$> rejectExistingSymlinks root (names l.asStr) := by
  rw [objectPath,if_pos h,map_eq_pure_bind]
  change rejectExistingSymlinks root (names l.asStr) >>= _ = _
  refine bind_congr (fun r => ?_)
  cases r <;> rfl

theorem objectPath_refused (root : Path) (h : accepted l.asStr = false) :
    (objectPath root l).run = .done (.error .invalidLocation) := by
  rw [objectPath,if_neg (by simp [h])]
  rfl

theorem objectPath_length {root : Path} {h : List (Sigma SysReply)}
    {m : Fs (Except StoreError Target)} (hf : (objectPath root l).run.Follows h m) :
    h.length ≤ (names l.asStr).length := by
  cases hacc : accepted l.asStr with
  | true =>
      rw [objectPath_eq root hacc] at hf
      obtain ⟨m,hm,-⟩ := Program.follows_map.mp hf
      exact reject_length hm
  | false =>
      rw [objectPath_refused root hacc] at hf
      simp [(Program.follows_done.mp hf).1]

theorem metadata_run (h : Run (Env faults) c tr c') (ht : ∀ ev ∈ tr, Metadata ev.effect) :
    c'.world = c.world ∧ ∀ ev ∈ tr, Tells faults c.world ev.answer := by
  induction h with
  | nil => exact ⟨rfl,by simp⟩
  | @snoc tr ev m c' _ hs ih =>
      obtain ⟨hm,htells⟩ := ih (fun e he => ht e (by simp [he]))
      obtain ⟨k,e,r⟩ := ev
      obtain ⟨path,rfl⟩ : Metadata e := ht ⟨k,e,r⟩ (by simp)
      obtain ⟨hw,htell⟩ := hs.world.tells
      rw [hm] at hw htell
      refine ⟨hw,?_⟩
      intro ev hev
      rcases List.mem_append.mp hev with hev | hev
      · exact htells ev hev
      · rw [List.mem_singleton.mp hev]
        exact htell

theorem of_own (h : ∀ ev ∈ tr, ev.call = i) : Trace.of i tr = tr.map Event.answer := by
  rw [Trace.of,List.filter_eq_self.mpr]
  simpa using h

-- A call asks about its path or has the answer of the check behind it.
inductive Phase (faults : Prop) (c : Config Disk SysReply α) (tr : Trace SysReply)
    (c' : Config Disk SysReply α) (i : ℕ) (root : Path) (l : Location)
    (F : Except StoreError Target → Fs α) : Prop
  | checking (path : Path) (next : Except IoError FileType → Fs α)
      (asks : c'.calls i = .perform (.symlinkMetadata path) next) (same : c'.world = c.world)
      (bounded : tr.length ≤ (names l.asStr).length)
  | checked (h : List (Sigma SysReply)) (tr₂ : Trace SysReply) (a : Except StoreError Target)
      (m : Config Disk SysReply α) (told : ∀ x ∈ h, Tells faults c.world x)
      (passed : (objectPath root l).run.Follows h (.done a)) (same : m.world = c.world)
      (rest : Run (Env faults) m tr₂ c') (own : ∀ ev ∈ tr₂, ev.call = i)
      (length : tr.length = h.length + tr₂.length)
      (follows : (F a).Follows (Trace.of i tr₂) (c'.calls i))

theorem phase {F : Except StoreError Target → Fs α} {root : Path}
    (h : Run (Env faults) c tr c') (hown : ∀ ev ∈ tr, ev.call = i)
    (hcall : c.calls i = (objectPath root l).run >>= F) : Phase faults c tr c' i root l F := by
  have hfollows := h.follows i
  have honly := objectPath_metadata root l
  rw [hcall] at hfollows
  have hasked : ∀ {h₁ m}, (objectPath root l).run.Follows h₁ m → ∀ x ∈ h₁, Metadata x.1 :=
    fun hf x hx => honly.mem hf x hx
  have hdone : ∀ h₁ h₂ a, Trace.of i tr = h₁ ++ h₂ → (objectPath root l).run.Follows h₁ (.done a) →
      (F a).Follows h₂ (c'.calls i) → Phase faults c tr c' i root l F := by
    intro h₁ h₂ a hsplit hpassed hrest
    rw [of_own hown] at hsplit
    obtain ⟨tr₁,tr₂,rfl,rfl,rfl⟩ := List.map_eq_append_iff.mp hsplit
    obtain ⟨m,hm,hm'⟩ := Run.append_iff.mp h
    obtain ⟨hsame,htold⟩ := metadata_run hm (fun ev hev =>
      hasked hpassed ev.answer (List.mem_map_of_mem hev))
    have hown₂ : ∀ ev ∈ tr₂, ev.call = i := fun ev hev => hown ev (by simp [hev])
    refine .checked _ tr₂ a m ?_ hpassed hsame hm' hown₂ (by simp) ?_
    · intro x hx
      obtain ⟨ev,hev,rfl⟩ := List.mem_map.mp hx
      exact htold ev hev
    · rwa [of_own hown₂]
  rcases Program.follows_bind hfollows with ⟨m,hm,hq⟩ | ⟨h₁,h₂,a,hsplit,h₁f,h₂f⟩
  · cases m with
    | done a => exact hdone _ [] a (by simp) hm (by rw [hq]; exact .refl _)
    | perform e next =>
        obtain ⟨path,rfl⟩ := (honly.follows hm).1
        have hmeta : ∀ ev ∈ tr, Metadata ev.effect := fun ev hev =>
          hasked hm ev.answer (Trace.mem_of.mpr ⟨ev,hev,hown ev hev,rfl⟩)
        refine .checking path _ hq (metadata_run h hmeta).1 ?_
        have := objectPath_length hm
        rwa [of_own hown,List.length_map] at this
  · exact hdone h₁ h₂ a hsplit h₁f h₂f

structure Confined (d : Disk) (root : Path) (l : Location) (t : Target) : Prop where
  path : t.path = root ++ names l.asStr
  proper : names l.asStr ≠ []
  plain : components l.asStr = (names l.asStr).map .normal
  resolves : ∀ p, d.resolve t.path = .ok p → p = root ++ names l.asStr
  stands : ∀ p, d.locate t.path = .ok p → p = root ++ names l.asStr
  bare : ∀ target, d.entries (root ++ names l.asStr) ≠ some (.link target)

def Evasive (d : Disk) (root : Path) (l : Location) : Prop :=
  .parentDir ∈ components l.asStr ∨ .curDir ∈ components l.asStr ∨ .rootDir ∈ components l.asStr ∨
    ∃ q target, q ≠ [] ∧ q <+: names l.asStr ∧ d.entries (root ++ q) = some (.link target)

theorem plain_of_accepted (h : accepted l.asStr = true) :
    components l.asStr = (names l.asStr).map .normal := by
  rw [accepted,List.all_eq_true] at h
  rw [names]
  generalize components l.asStr = cs at h ⊢
  induction cs with
  | nil => rfl
  | cons c cs ih =>
      obtain ⟨hc,hcs⟩ := List.forall_mem_cons.mp h
      cases c with
      | normal name =>
          rw [List.filterMap_cons_some (rfl : (Component.normal name).name = some name),
            List.map_cons,← ih hcs]
      | _ => simp [Component.name] at hc

theorem confined {root : Path} {d : Disk} (hw : d.Wf) (hacc : accepted l.asStr = true)
    (hc : d.Clear (root ++ names l.asStr)) : Confined d root l (join root l) where
  path := rfl
  proper := names_ne_nil l hacc
  plain := plain_of_accepted hacc
  resolves := by
    intro p hp
    have hl := Disk.resolve_located hw hc
    rw [join] at hp
    rw [hp] at hl
    cases hl with
    | found => rfl
  stands := by
    intro p hp
    have hl := Disk.locate_located hw (hc.mono (List.dropLast_prefix _))
    rw [join] at hp
    rw [hp] at hl
    cases hl with
    | found => rfl
  bare := hc _ (List.prefix_refl _)

theorem Evasive.refused {root : Path} {d : Disk} {h : List (Sigma SysReply)}
    {a : Except StoreError Target} (he : Evasive d root l) (hw : d.Wf) (hc : d.Clear root)
    (hr : d.node root = some .dir) (ht : ∀ x ∈ h, Tells faults d x)
    (hf : (objectPath root l).run.Follows h (.done a)) :
    ∃ e, a = .error e ∧ (¬ faults → e = .invalidLocation) := by
  cases hacc : accepted l.asStr with
  | false =>
      rw [objectPath_refused root hacc] at hf
      exact ⟨_,Program.done.inj (Program.follows_done.mp hf).2,fun _ => rfl⟩
  | true =>
      rw [objectPath_eq root hacc] at hf
      obtain ⟨b,hb,rfl⟩ := Program.follows_map_done.mp hf
      rw [Evasive,plain_of_accepted hacc] at he
      simp only [List.mem_map,reduceCtorEq,and_false,exists_false,false_or] at he
      obtain ⟨q,target,hq,hpre,hlink⟩ := he
      obtain ⟨e,rfl,hinv⟩ := reject_link hw ht hc hr hq hpre hlink hb
      exact ⟨e,rfl,hinv⟩

theorem objectPath_ok {root : Path} {d : Disk} {h : List (Sigma SysReply)} {t : Target}
    (hw : d.Wf) (hc : d.Clear root) (hr : d.node root = some .dir) (ht : ∀ x ∈ h, Tells faults d x)
    (hf : (objectPath root l).run.Follows h (.done (.ok t))) :
    accepted l.asStr = true ∧ t = join root l ∧ d.Clear (root ++ names l.asStr) := by
  cases hacc : accepted l.asStr with
  | false =>
      rw [objectPath_refused root hacc] at hf
      have hd := (Program.follows_done.mp hf).2
      simp at hd
  | true =>
      rw [objectPath_eq root hacc] at hf
      obtain ⟨b,hb,hbt⟩ := Program.follows_map_done.mp hf
      cases b with
      | error e => simp [Except.map] at hbt
      | ok u => exact ⟨rfl,(Except.ok.inj hbt).symm,reject_clear hw ht hc hr hb⟩

theorem grown_run (h : Run (Env faults) c tr c') : Disk.Grown c.world c'.world :=
  Run.world_invariant (fun {_ _ _} henv hg => hg.trans henv.grown) h (.refl _)

theorem objects_confined {f : rq.Response StoreError → α} (h : Run (Env faults) c tr c')
    (hown : ∀ ev ∈ tr, ev.call = i) (hcall : c.calls i = f <$> self.serve rq)
    (hw : c.world.Wf) (hroot : c.world.Clear self.root) (hdir : c.world.node self.root = some .dir) :
    (∀ e next t, c'.calls i = .perform e next → (e = .read t ∨ ∃ source, e = .rename source t) →
      Confined c'.world self.root rq.location t) ∧
    (Evasive c.world self.root rq.location →
      c'.world = c.world ∧ tr.length ≤ (names rq.location.asStr).length ∧
      ((∃ path next, c'.calls i = .perform (.symlinkMetadata path) next) ∨
        ∃ e, c'.calls i = .done (f (rq.failed e)) ∧ (¬ faults → e = .invalidLocation))) := by
  obtain ⟨F,hF,hfail,honly⟩ := serve_eq self rq
  rw [hF,map_bind] at hcall
  cases phase h hown hcall with
  | checking path next hasks hsame hlen =>
      refine ⟨?_,fun _ => ⟨hsame,hlen,.inl ⟨path,next,hasks⟩⟩⟩
      rintro e next' t hcall' he
      rw [hasks] at hcall'
      obtain ⟨rfl,-⟩ := Program.perform.inj hcall'
      simp at he
  | checked hs tr₂ a m htold hpassed hsame hrest hown₂ hlen hfollows =>
      constructor
      · rintro e next t hnext he
        cases a with
        | error x =>
            rw [hfail] at hfollows
            obtain ⟨-,hd⟩ := Program.follows_done.mp hfollows
            rw [hnext] at hd
            simp at hd
        | ok t' =>
            obtain ⟨hacc,rfl,hclear⟩ := objectPath_ok hw hroot hdir htold hpassed
            have hg := grown_run hrest
            rw [hsame] at hg
            have honly' := ((honly _).map (f := f)).follows hfollows
            rw [hnext] at honly'
            have ht : t = join self.root rq.location := by
              rcases he with rfl | ⟨source,rfl⟩ <;> exact honly'.1
            rw [ht]
            exact confined (hg.wf hw) hacc (hg.links.clear hclear)
      · intro hev
        obtain ⟨e,rfl,hinv⟩ := hev.refused hw hroot hdir htold hpassed
        rw [hfail] at hfollows
        obtain ⟨htr₂,hd⟩ := Program.follows_done.mp hfollows
        rw [of_own hown₂,List.map_eq_nil_iff] at htr₂
        subst htr₂
        obtain rfl := Run.nil_iff.mp hrest
        refine ⟨hsame,?_,.inr ⟨e,hd,hinv⟩⟩
        rw [hlen]
        exact objectPath_length hpassed

def diverted : Disk :=
  .untouched (fun p => if p = ["orders"] then some (.link ["etc"]) else none)

theorem diverted_wf : diverted.Wf := by
  intro p c h
  have hp : p ++ [c] = ["orders"] := by
    by_contra hne
    simp [diverted,Disk.untouched,hne] at h
  cases p with
  | nil => rfl
  | cons x p => simp at hp

theorem linked_location_rejected :
    ∃ c', Run (Env False) ⟨diverted,fun _ => id <$> serve ⟨[]⟩ (.get ⟨"orders/a.json",by decide⟩)⟩
        [⟨0,.symlinkMetadata ["orders"],.ok .symlink⟩] c' ∧ c'.world = diverted ∧
      c'.calls 0 = .done (.error .invalidLocation) := by
  let l : Location := ⟨"orders/a.json",by decide⟩
  have hacc : accepted l.asStr = true := by decide
  have hnames : names l.asStr = ["orders","a.json"] := by decide
  have hserve : ∃ next, id <$> serve ⟨[]⟩ (.get l) = .perform (.symlinkMetadata ["orders"]) next ∧
      ∃ a, next (.ok .symlink) = .done a := by
    rw [serve,FilesystemStore.get,objectPath,if_pos hacc,hnames]
    exact ⟨_,rfl,_,rfl⟩
  obtain ⟨next,hnext,a,ha⟩ := hserve
  have hrun := Run.snoc .nil (@Step.perform _ _ _ _ (Env False)
    ⟨diverted,fun _ => id <$> serve ⟨[]⟩ (.get l)⟩ ⟨0,.symlinkMetadata ["orders"],.ok .symlink⟩ next
    diverted hnext (.exec rfl))
  refine ⟨_,hrun,?_⟩
  have hevasive : Evasive diverted [] l := by
    refine .inr (.inr (.inr ⟨["orders"],["etc"],by simp,?_,rfl⟩))
    decide
  obtain ⟨-,hno⟩ := objects_confined (i := 0) (f := id) hrun (by simp) rfl diverted_wf
    (fun q hq t => by simp [List.prefix_nil.mp hq,diverted,Disk.untouched]) rfl
  obtain ⟨hsame,-,hend⟩ := hno hevasive
  refine ⟨hsame,?_⟩
  rcases hend with ⟨path,next',hask⟩ | ⟨e,hd,he⟩
  · simp [ha] at hask
  · rw [he id] at hd
    exact hd

end Runs

end Filesystem

end Objsds
