import Objsds.Filesystem.Locking

namespace Objsds

open Foundation FilesystemStore

namespace Filesystem

variable {K : Setting} {i : ℕ} {l : Location} {α β γ : Type} {rq : Request} {ino file : ℕ}
  {next : rq.Response StoreError → Action StoreError β} {mode : LockMode} {made : Prop}
  {before : Option Object} {rev id : Uuid} {b : Bytes} {bytes : Bytes} {d d₁ : Disk}
  {s s₁ : Ideal.State}

section Reading

def scan : Except IoError Bytes → Except StoreError (Option Object)
  | .ok bytes => (decode bytes).map some
  | .error .notFound => .ok none
  | .error error => .error (.io error)

theorem readPath_eq (t : Target) : readPath t = scan <$> Program.request (Sys.read t) := by
  rw [readPath,map_eq_pure_bind]
  refine congrArg _ (funext fun r => ?_)
  match r with
  | .ok bytes => rfl
  | .error .notFound | .error .alreadyExists | .error .notADirectory | .error .isADirectory
  | .error .filesystemLoop | .error .other => rfl

theorem scan_cases (hK : K.Sound) (hi : Inv K d s) (hl : K.sites l)
    (hshow : K.Shows d l (s.objects l)) {r : Except IoError Bytes}
    (henv : Env K.faults d ⟨i,.read (K.object l),r⟩ d₁) :
    d₁ = d ∧ (scan r = .ok (s.objects l) ∨ ∃ e, scan r = .error e ∧ K.lax) := by
  cases henv with
  | fault hf hr =>
      obtain rfl := Option.some.inj hr
      exact ⟨rfl,.inr ⟨_,rfl,hK.reliable hf⟩⟩
  | exec he =>
      simp only [Disk.exec,Option.some.injEq,Prod.mk.injEq] at he
      obtain ⟨rfl,rfl⟩ := he
      refine ⟨rfl,?_⟩
      have hscan := Disk.read_scanned hi.tree.wf (hi.tree.clearObject l hl)
      generalize d.read (K.object l) = r at hscan
      cases hscan with
      | file k hk hplain =>
          have hv := Disk.visible_of_entry hplain hk
          cases ho : s.objects l with
          | none =>
              rw [ho] at hshow
              exact absurd (hshow.symm.trans hv) (by simp)
          | some o =>
              rw [ho] at hshow
              obtain ⟨k',hk',hdec⟩ := hshow
              obtain rfl := Option.some.inj (hv.symm.trans hk')
              exact .inl (by simp [scan,hdec,Except.map])
      | absent hgone =>
          have hv : d.visible (K.object l) = none := by
            simp [Disk.visible,hgone]
          cases ho : s.objects l with
          | none => exact .inl rfl
          | some o =>
              rw [ho] at hshow
              obtain ⟨k',hk',-⟩ := hshow
              exact absurd (hv.symm.trans hk') (by simp)
      | slash k hk hslash =>
          refine .inr ⟨_,rfl,?_⟩
          by_contra hx
          have := (hK.strict hx).plain l hl
          simp [Setting.object,join,this] at hslash
      | dir hdir =>
          refine .inr ⟨_,rfl,?_⟩
          by_contra hx
          obtain ⟨name,hname,-⟩ := Setting.object_split (K := K) (hK.accepted l hl)
          rw [Disk.node_of_ne (by simp [hname])] at hdir
          exact (hi.tree.files hx l hl).1 hdir
      | through q t k hs ht hq hf hgone =>
          refine .inr ⟨_,rfl,?_⟩
          by_contra hx
          exact hi.proper_clear hK hl hx (List.prefix_refl _) hs ht k hf

-- What is known once the object is read: the request may be answered by it already.
def Read (next : rq.Response StoreError → Action StoreError β)
    (answer : Option Object → Option (rq.Response StoreError)) (P : Fact) (l : Location) :
    Except StoreError (Option Object) → Assertion (Reply StoreError) Disk Ideal.State β
  | .ok o => match answer o with
    | some r => At P (next r)
    | none => At (fun d s => P d s ∧ s.objects l = o) (.perform (.store rq) next)
  | .error e => At P (next (rq.failed e))

theorem read_piece (hK : K.Sound) (hl : K.sites l)
    {answer : Option Object → Option (rq.Response StoreError)}
    (hanswer : ∀ s r, answer (s.objects l) = some r → Ideal.Step K.lax s rq r s)
    (hshown : ∀ o r x, answer o = some r → Shown K ⟨.read (K.object l),x⟩ ⟨.store rq,r⟩) :
    (simulation K).Triple i (readPath (K.object l))
      (At (Acquired K i l ino mode made) (.perform (.store rq) next))
      (Read next answer (Acquired K i l ino mode made) l) := by
  rw [readPath_eq]
  refine Simulation.Triple.step (fun r => Read next answer (Acquired K i l ino mode made) l (scan r))
    ((keeps_acquired hl).stable _) ?_ (fun _ _ _ _ _ h => h)
  rintro d s q r d₁ hi ⟨rfl,hacq⟩ henv
  obtain ⟨rfl,hscan | ⟨e,hscan,hlax⟩⟩ := scan_cases hK hi hl (hacq.shows hi hl) henv
  · rw [hscan]
    cases ha : answer (s.objects l) with
    | none =>
        refine ⟨none,s,_,.silent,by simp [simulation],hi,Guar.refl i d₁ s,?_⟩
        simp only [Read,ha]
        exact ⟨rfl,hacq,rfl⟩
    | some r' =>
        refine ⟨_,s,_,.emit (.store (hanswer s r' ha)),?_,hi,Guar.refl i d₁ s,?_⟩
        · intro a hm
          obtain rfl := Option.mem_some_iff.mp hm
          exact hshown _ r' r ha
        · simp only [Read,ha]
          exact ⟨rfl,hacq⟩
  · obtain ⟨mark,ha,hs⟩ := advance_failed hlax ⟨i,.read (K.object l),r⟩ e next
    refine ⟨mark,s,_,ha,hs,hi,Guar.refl i d₁ s,?_⟩
    rw [hscan]
    exact ⟨rfl,hacq⟩

end Reading

section Staging

-- The files of the publication: the lock, what the location held, the revision, the temporary.
structure Ready (K : Setting) (i : ℕ) (l : Location) (file : ℕ) (before : Option Object)
    (rev id : Uuid) (d : Disk) (s : Ideal.State) : Prop where
  locked : Locked K i l file before d s
  fresh : Fresh K i rev d s
  owned : Owned K i id d s

theorem keeps_ready (hl : K.sites l) : Keeps K i (Ready K i l file before rev id) := by
  intro j hj d s d₁ s₁ hi hi₁ hg hp
  exact ⟨keeps_locked hl before j hj d s d₁ s₁ hi hi₁ hg hp.locked,
    keeps_fresh rev j hj d s d₁ s₁ hi hi₁ hg hp.fresh,
    keeps_owned id j hj d s d₁ s₁ hi hi₁ hg hp.owned⟩

theorem Ready.step (h : Ready K i l file before rev id d s) (hg : Guar K i d s d₁ s)
    (hlocks : d₁.locks = d.locks) (hl : K.sites l) (hi : Inv K d s)
    (hobject : d₁.visible (K.object l) = d.visible (K.object l)) :
    Ready K i l file before rev id d₁ s := by
  have hd : ∀ k, d.visible (K.object l) = some k → d₁.data k = d.data k := fun k hk =>
    (hg.data k (hi.visible_lt hk) (.inr ⟨l,hl,hi.visible_kept hk⟩)).1
  refine ⟨⟨⟨hg.lockFile l file hl h.locked.holding.file,?_,?_⟩,hg.dirs _ h.locked.dir,
    h.locked.object,h.locked.shows.congr hobject hd⟩,⟨⟨hg.drawn rev i h.fresh.owned.drawn,
    h.fresh.owned.recent⟩,h.fresh.unused⟩,hg.drawn id i h.owned.drawn,h.owned.recent⟩
  · rw [hlocks]
    exact h.locked.holding.held
  · rw [hlocks]
    exact h.locked.holding.alone

theorem createNew_piece (hK : K.Sound) (hl : K.sites l) :
    (simulation K).Triple i (io (Program.request (Sys.createNew (K.temporary l id)))).run
      (At (fun d s => Ready K i l file before rev id d s ∧
        (¬ K.lax → d.entries (K.temporary l id) = none)) (.perform (.store rq) next))
      (Piece next (fun ino d s => Ready K i l file before rev id d s ∧ Staged K i l id ino [] d s)
        (Ready K i l file before rev id)) := by
  have hkeep : Keeps K i (fun d s => Ready K i l file before rev id d s ∧
      (¬ K.lax → d.entries (K.temporary l id) = none)) := by
    rintro j hj d s d₁ s₁ hi hi₁ hg ⟨hr,hn⟩
    refine ⟨keeps_ready hl j hj d s d₁ s₁ hi hi₁ hg hr,fun hx => ?_⟩
    exact (hg.temporaries l id i hl hr.owned.recent hr.owned.drawn (Ne.symm hj)).2 hx (hn hx)
  refine request_piece _ hkeep ?_
  rintro d s r d₁ hi ⟨hr,hn⟩ henv
  cases henv with
  | fault hf hr' =>
      obtain rfl := Option.some.inj hr'
      exact ⟨hi,Guar.refl i d s,.inr ⟨_,rfl,hK.reliable hf,hr⟩⟩
  | exec he =>
      have hclear := (hi.tree.clearObject l hl).mono (Setting.dir_prefix l)
      have hloc : d.locate (K.temporary l id) = .ok (K.temporary l id) :=
        Disk.locate_child hi.tree.wf _ hclear hr.locked.dir
      have hne : K.temporary l id ≠ [] := by simp [Setting.temporary]
      simp only [Disk.exec,Disk.createNew,hloc,Disk.node_of_ne hne,Option.some.injEq] at he
      cases hnode : d.entries (K.temporary l id) with
      | some n =>
          simp only [hnode,Prod.mk.injEq] at he
          obtain ⟨rfl,rfl⟩ := he
          refine ⟨hi,Guar.refl i d s,.inr ⟨_,rfl,?_,hr⟩⟩
          by_contra hx
          rw [hn hx] at hnode
          simp at hnode
      | none =>
          simp only [hnode,Prod.mk.injEq] at he
          obtain ⟨rfl,rfl⟩ := he
          obtain ⟨hi₁,hg⟩ := newTemporary_step hK hi hl hr.owned.recent hr.owned.drawn
            hr.locked.dir hnode
          have hobj : (K.object l).path ≠ K.temporary l id :=
            hK.notTemporary l l id hl hl hr.owned.recent
          have hready : Ready K i l file before rev id (d.newFile i (K.temporary l id)) s := by
            refine hr.step hg rfl hl hi (Disk.visible_congr (fun k => ?_))
            simp [Disk.newFile,Disk.set,hobj]
          refine ⟨hi₁,hg,.inl ⟨d.next,rfl,hready,hready.owned,⟨?_,Nat.lt_succ_self _,?_⟩,?_,?_⟩⟩
          · simp [Disk.newFile]
          · intro l' hl' hm
            have hne' : (K.object l').path ≠ K.temporary l id :=
              hK.notTemporary l' l id hl' hl hr.owned.recent
            simp only [Disk.newFile,Disk.set,Function.update_of_ne hne'] at hm
            exact Nat.lt_irrefl _ (hi.tree.bounded _ _ hm)
          · simp [Disk.newFile,Disk.set]
          · simp [Disk.newFile]

theorem Ready.write (h : Ready K i l file before rev id d s) (hl : K.sites l) (hi : Inv K d s)
    (hg : Guar K i d s d₁ s) (he : d₁.entries = d.entries) (hlocks : d₁.locks = d.locks) :
    Ready K i l file before rev id d₁ s :=
  h.step hg hlocks hl hi (Disk.visible_congr (fun _ => by rw [he]))

theorem writeAll_piece (hK : K.Sound) (hl : K.sites l) :
    (simulation K).Triple i (io (Program.request (Sys.writeAll ino bytes))).run
      (At (fun d s => Ready K i l file before rev id d s ∧ Staged K i l id ino [] d s)
        (.perform (.store rq) next))
      (Piece next (fun _ d s => Ready K i l file before rev id d s ∧
          (bytes.length < 2 ^ 63 ∧ Staged K i l id ino bytes d s))
        (Ready K i l file before rev id)) := by
  refine request_piece _ ((keeps_ready hl).and (keeps_staged hl id [])) ?_
  rintro d s r d₁ hi ⟨hr,hs⟩ henv
  cases henv with
  | fault hf hr' =>
      obtain rfl := Option.some.inj hr'
      exact ⟨hi,Guar.refl i d s,.inr ⟨_,rfl,hK.reliable hf,hr⟩⟩
  | shortWrite hf hpart =>
      rename_i part
      obtain ⟨hi₁,hg⟩ := append_step hi hs.hidden part
      exact ⟨hi₁,hg,.inr ⟨_,rfl,hK.reliable hf,hr.write hl hi hg rfl rfl⟩⟩
  | exec he =>
      simp only [Disk.exec] at he
      split at he
      · rename_i hlen
        obtain ⟨rfl,rfl⟩ := Prod.mk.inj (Option.some.inj he)
        obtain ⟨hi₁,hg⟩ := append_step hi hs.hidden bytes
        refine ⟨hi₁,hg,.inl ⟨(),rfl,hr.write hl hi hg rfl rfl,hlen,⟨hs.owned.drawn,hs.owned.recent⟩,
          ⟨hs.hidden.own,hs.hidden.exist,hs.hidden.hidden⟩,hs.entry,?_⟩⟩
        simp [Disk.append,hs.data]
      · simp at he

theorem keeps_syncedStage (hl : K.sites l) :
    Keeps K i (fun d s => Staged K i l id ino bytes d s ∧ d.synced ino = true) := by
  rintro j hj d s d₁ s₁ hi hi₁ hg ⟨hs,hy⟩
  exact ⟨keeps_staged hl id bytes j hj d s d₁ s₁ hi hi₁ hg hs,
    (keeps_synced ino j hj d s d₁ s₁ hi hi₁ hg ⟨hs.hidden,hy⟩).2⟩

theorem syncAll_piece (hK : K.Sound) (hl : K.sites l) :
    (simulation K).Triple i (io (Program.request (Sys.syncAll ino))).run
      (At (fun d s => Ready K i l file before rev id d s ∧
        (bytes.length < 2 ^ 63 ∧ Staged K i l id ino bytes d s)) (.perform (.store rq) next))
      (Piece next (fun _ d s => Ready K i l file before rev id d s ∧
          (Staged K i l id ino bytes d s ∧ d.synced ino = true))
        (Ready K i l file before rev id)) := by
  refine request_piece _ ((keeps_ready hl).and (keeps_staged hl id bytes).given) ?_
  rintro d s r d₁ hi ⟨hr,-,hs⟩ henv
  cases henv with
  | fault hf hr' =>
      obtain rfl := Option.some.inj hr'
      exact ⟨hi,Guar.refl i d s,.inr ⟨_,rfl,hK.reliable hf,hr⟩⟩
  | exec he =>
      obtain ⟨rfl,rfl⟩ := Prod.mk.inj (Option.some.inj he)
      obtain ⟨hi₁,hg⟩ := syncAll_step hi hs.hidden
      refine ⟨hi₁,hg,.inl ⟨(),rfl,hr.write hl hi hg rfl rfl,⟨⟨hs.owned.drawn,hs.owned.recent⟩,
        ⟨hs.hidden.own,hs.hidden.exist,hs.hidden.hidden⟩,hs.entry,hs.data⟩,?_⟩⟩
      simp [Disk.syncAll]

end Staging

section Renaming

-- The new file is in place; what is on record is still what was there before.
structure Renamed (K : Setting) (i : ℕ) (l : Location) (file : ℕ) (before : Option Object)
    (rev id : Uuid) (ino : ℕ) (b : Bytes) (d : Disk) (s : Ideal.State) : Prop where
  holding : Holding K i l file .exclusive d s
  dir : d.node (K.dir l) = some .dir
  object : s.objects l = before
  fresh : Fresh K i rev d s
  owned : Owned K i id d s
  plain : (K.object l).dirOnly = false
  entry : d.entries (K.object l).path = some (.file ino)
  data : decode (d.data ino) = .ok ⟨b,revisionVersion rev⟩
  synced : d.synced ino = true

theorem keeps_renamed (hl : K.sites l) :
    Keeps K i (Renamed K i l file before rev id ino b) := by
  intro j hj d s d₁ s₁ hi hi₁ hg hp
  have hnot := hp.holding.not_other hi hj
  have hkept : some (.file ino) ∈ d.kept (K.object l).path := by
    rw [← hp.entry]
    exact hi.tree.current _
  obtain ⟨hdata,hsync⟩ := hg.data ino (hi.tree.bounded _ _ hkept) (.inr ⟨l,hl,hkept⟩)
  exact ⟨keeps_holding hl _ j hj d s d₁ s₁ hi hi₁ hg hp.holding,hg.dirs _ hp.dir,
    by rw [(hg.objects l hl hnot).1,hp.object],keeps_fresh rev j hj d s d₁ s₁ hi hi₁ hg hp.fresh,
    keeps_owned id j hj d s d₁ s₁ hi hi₁ hg hp.owned,hp.plain,
    ((hg.objects l hl hnot).2 ino).mpr hp.entry,by rw [hdata,hp.data],by rw [hsync,hp.synced]⟩

def Setting.Admits (K : Setting) (l : Location) (b : Bytes) : Prop :=
  ∀ rev, ¬ K.old rev → b.length < 2 ^ 63 → K.origin l (envelope rev b)

theorem rename_piece (hK : K.Sound) (hl : K.sites l) (hb : K.Admits l b)
    (hlen : (envelope rev b).length < 2 ^ 63) :
    (simulation K).Triple i
      (io (Program.request (Sys.rename (K.temporary l id) (K.object l)))).run
      (At (fun d s => Ready K i l file before rev id d s ∧
        (Staged K i l id ino (envelope rev b) d s ∧ d.synced ino = true)) (.perform (.store rq) next))
      (Piece next (fun _ => Renamed K i l file before rev id ino b)
        (Ready K i l file before rev id)) := by
  refine request_piece _ ((keeps_ready hl).and (keeps_syncedStage hl)) ?_
  rintro d s r d₁ hi ⟨hr,hs,hsync⟩ henv
  have hblen : b.length < 2 ^ 63 := by
    simp only [envelope,List.length_append,List.length_cons] at hlen
    omega
  cases henv with
  | fault hf hr' =>
      obtain rfl := Option.some.inj hr'
      exact ⟨hi,Guar.refl i d s,.inr ⟨_,rfl,hK.reliable hf,hr⟩⟩
  | exec he =>
      obtain ⟨name,hname,-⟩ := Setting.object_split (K := K) (hK.accepted l hl)
      have hclear := (hi.tree.clearObject l hl).mono (Setting.dir_prefix l)
      have hsource : d.locate (K.temporary l id) = .ok (K.temporary l id) :=
        Disk.locate_child hi.tree.wf _ hclear hr.locked.dir
      have htarget : d.locate (K.object l).path = .ok (K.object l).path := by
        rw [hname]
        exact Disk.locate_child hi.tree.wf _ hclear hr.locked.dir
      have hne : K.temporary l id ≠ [] := by simp [Setting.temporary]
      have hne' : (K.object l).path ≠ [] := by simp [hname]
      simp only [Disk.exec,Disk.rename,hsource,htarget,Disk.node_of_ne hne,Disk.node_of_ne hne',
        hs.entry,Option.some.injEq] at he
      split at he
      · rename_i hslash
        obtain ⟨rfl,rfl⟩ := Prod.mk.inj he
        refine ⟨hi,Guar.refl i d s,.inr ⟨_,rfl,?_,hr⟩⟩
        by_contra hx
        have := (hK.strict hx).plain l hl
        simp [Setting.object,join,this] at hslash
      · rename_i hplain
        split at he
        · rename_i hdir
          obtain ⟨rfl,rfl⟩ := Prod.mk.inj he
          refine ⟨hi,Guar.refl i d s,.inr ⟨_,rfl,?_,hr⟩⟩
          by_contra hx
          exact (hi.tree.files hx l hl).1 hdir
        · rename_i hdir
          split at he
          · rename_i hsame
            refine absurd ?_ (hs.hidden.hidden l hl)
            rw [← hsame]
            exact hi.tree.current _
          · obtain ⟨rfl,rfl⟩ := Prod.mk.inj he
            have horigin : K.origin l (d.data ino) := by
              rw [hs.data]
              exact hb rev hr.fresh.owned.recent hblen
            obtain ⟨hi₁,hg⟩ := rename_step hK hi hl hs.owned.recent hs.owned.drawn hr.locked.dir
              hs.hidden hdir hs.entry ⟨file,hr.locked.holding.file,hr.locked.holding.held⟩ hsync
              horigin
            have hobj := hK.notTemporary l l id hl hl hs.owned.recent
            refine ⟨hi₁,hg,.inl ⟨(),rfl,⟨hg.lockFile l file hl hr.locked.holding.file,
              hr.locked.holding.held,hr.locked.holding.alone⟩,hg.dirs _ hr.locked.dir,
              hr.locked.object,⟨⟨hr.fresh.owned.drawn,hr.fresh.owned.recent⟩,hr.fresh.unused⟩,
              ⟨hr.owned.drawn,hr.owned.recent⟩,by simpa using hplain,?_,?_,hsync⟩⟩
            · simp [Disk.set,hobj]
            · have hdec := @decode_envelope rev b (by omega)
              rw [← hs.data] at hdec
              exact hdec

def Doubt (K : Setting) (rq : Request) (e : StoreError) (r : rq.Response StoreError) : Prop :=
  r = rq.failed e ∨ (K.lax ∧ ∃ v, r = rq.uncertain e v)

def Written (K : Setting) (i : ℕ) (l : Location) (file : ℕ) (o : Object) : Fact := fun d s =>
  Acquired K i l file .exclusive True d s ∧ s.objects l = some o ∧ Durable K l o d s

theorem Renamed.commit (hl : K.sites l) (hr : Renamed K i l file before rev id ino b d s)
    (hi₁ : Inv K d₁ s) (hg : Guar K i d s d₁ s) (he : d₁.entries = d.entries)
    (hlocks : d₁.locks = d.locks) (hdata : d₁.data = d.data) :
    Inv K d₁ (s.put l ⟨b,revisionVersion rev⟩) ∧ Guar K i d s d₁ (s.put l ⟨b,revisionVersion rev⟩) ∧
      Acquired K i l file .exclusive True d₁ (s.put l ⟨b,revisionVersion rev⟩) := by
  have hfile : d₁.entries (K.lock l) = some (.file file) := by
    rw [he]
    exact hr.holding.file
  have hheld : (i,.exclusive) ∈ d₁.locks file := by
    rw [hlocks]
    exact hr.holding.held
  obtain ⟨hi₂,hg₂⟩ := commit_step hi₁ hg hl ⟨file,hr.holding.file,hr.holding.held⟩
    ⟨file,hfile,hheld⟩ hr.fresh.owned.drawn (o := ⟨b,revisionVersion rev⟩) rfl
  refine ⟨hi₂,hg₂,⟨hfile,hheld,?_⟩,fun _ => hg.dirs _ hr.dir,fun _ => ?_⟩
  · rw [hlocks]
    exact hr.holding.alone
  · have hput : (s.put l ⟨b,revisionVersion rev⟩).objects l = some ⟨b,revisionVersion rev⟩ :=
      Objects.put_self ..
    rw [hput]
    refine ⟨ino,Disk.visible_of_entry hr.plain (by rw [he,hr.entry]),?_⟩
    rw [hdata]
    exact hr.data

def Attempt (K : Setting) (next : rq.Response StoreError → Action StoreError β) (P : α → Fact)
    (F : Fact) :
    Except StoreError α → Assertion (Reply StoreError) Disk Ideal.State β
  | .ok a => At (P a) (.perform (.store rq) next)
  | .error e => fun d s q => F d s ∧ ∃ r, Doubt K rq e r ∧ q = next r

def Cleared (K : Setting) (i : ℕ) (l : Location) (file : ℕ) (id : Uuid) : Fact := fun d s =>
  Acquired K i l file .exclusive True d s ∧ Owned K i id d s

theorem Ready.cleared (h : Ready K i l file before rev id d s) : Cleared K i l file id d s := by
  refine ⟨⟨h.locked.holding,fun _ => h.locked.dir,fun _ => ?_⟩,h.owned⟩
  rw [h.locked.object]
  exact h.locked.shows

theorem Piece.attempt {P : α → Fact} {r : Except StoreError α} {q : Action StoreError β}
    (h : Piece next P (Ready K i l file before rev id) r d s q) :
    Attempt K next P (Cleared K i l file id) r d s q := by
  cases r with
  | ok a => exact h
  | error e => exact ⟨h.2.cleared,_,.inl rfl,h.1⟩

theorem Shown.uncertain (x : Sigma SysReply) (rq : Request) (e : StoreError) (v : Version) :
    Shown K x ⟨.store rq,rq.uncertain e v⟩ := by
  cases rq <;> exact trivial

-- After the rename a failure leaves the write in doubt.
theorem Renamed.abandon (hl : K.sites l) (hw : rq.Writes l b before) (hlax : K.lax)
    (hr : Renamed K i l file before rev id ino b d s) (hi : Inv K d s) (ev : Event SysReply)
    (e : StoreError) :
    ∃ mark s₁ q₁, (simulation K).Advance i s (.perform (.store rq) next) mark s₁ q₁ ∧
      (simulation K).shows ev mark ∧ Inv K d s₁ ∧ Guar K i d s d s₁ ∧
      Cleared K i l file id d s₁ ∧ ∃ r, Doubt K rq e r ∧ q₁ = next r := by
  obtain ⟨hi₁,hg,hacq⟩ := hr.commit hl hi (Guar.refl i d s) rfl rfl rfl
  refine ⟨_,_,_,.emit (.store (Ideal.step_uncertain hlax hw hr.object hr.fresh.unused e)),?_,hi₁,hg,
    ⟨hacq,⟨hr.owned.drawn,hr.owned.recent⟩⟩,_,.inr ⟨hlax,_,rfl⟩,rfl⟩
  intro a ha
  obtain rfl := Option.mem_some_iff.mp ha
  exact Shown.uncertain _ rq e _

theorem openDir_attempt (hK : K.Sound) (hl : K.sites l) (hw : rq.Writes l b before) :
    (simulation K).Triple i (io (Program.request (Sys.openDir (K.dir l)))).run
      (At (Renamed K i l file before rev id ino b) (.perform (.store rq) next))
      (Attempt K next (fun p d s => p = K.dir l ∧ Renamed K i l file before rev id ino b d s)
        (Cleared K i l file id)) := by
  refine Simulation.Triple.step (fun r => Attempt K next (fun p d s => p = K.dir l ∧
    Renamed K i l file before rev id ino b d s) (Cleared K i l file id) (r.mapError .io))
    ((keeps_renamed hl).stable _) ?_ (fun _ _ _ _ _ h => h)
  rintro d s q r d₁ hi ⟨rfl,hr⟩ henv
  cases henv with
  | fault hf hr' =>
      obtain rfl := Option.some.inj hr'
      obtain ⟨mark,s₁,q₁,ha,hs,hi₁,hg,hc,hd⟩ := hr.abandon hl hw (hK.reliable hf) hi
        ⟨i,.openDir (K.dir l),.error .other⟩ (.io .other)
      exact ⟨mark,s₁,q₁,ha,hs,hi₁,hg,hc,hd⟩
  | exec he =>
      have hclear := (hi.tree.clearObject l hl).mono (Setting.dir_prefix l)
      have hres := Disk.resolve_dir hi.tree.wf hclear hr.dir
      simp only [Disk.exec,Disk.canonicalize,hres,hr.dir,Option.some.injEq,Prod.mk.injEq,
        reduceCtorEq,if_false] at he
      obtain ⟨rfl,rfl⟩ := he
      exact ⟨none,s,_,.silent,by simp [simulation],hi,Guar.refl i d s,rfl,rfl,hr⟩

theorem Renamed.durable (h : Renamed K i l file before rev id ino b d s)
    (ha : accepted l.asStr = true) (s₁ : Ideal.State) :
    Durable K l ⟨b,revisionVersion rev⟩ (d.syncDir (K.dir l)) s₁ := by
  obtain ⟨name,hname,-⟩ := Setting.object_split (K := K) ha
  intro n hn
  have hkept : (d.syncDir (K.dir l)).kept (K.object l).path = [d.entries (K.object l).path] := by
    simp [Disk.syncDir,hname]
  rw [hkept,List.mem_singleton,h.entry] at hn
  exact ⟨ino,hn,h.synced,h.data⟩

theorem Shown.wrote (hw : rq.Writes l b before) (v : Version) :
    Shown K ⟨.syncDir (K.dir l),.ok ()⟩ ⟨.store rq,rq.wrote v⟩ := by
  cases hw <;> exact rfl

def Ended (K : Setting) (i : ℕ) (l : Location) (file : ℕ) (b : Bytes) (F : Fact)
    (next : rq.Response StoreError → Action StoreError β) (v : α → Version) :
    Except StoreError α → Assertion (Reply StoreError) Disk Ideal.State β
  | .ok a => At (Written K i l file ⟨b,v a⟩) (next (rq.wrote (v a)))
  | .error e => fun d s q => F d s ∧ ∃ r, Doubt K rq e r ∧ q = next r

theorem syncDir_attempt (hK : K.Sound) (hl : K.sites l) (hw : rq.Writes l b before) :
    (simulation K).Triple i (io (Program.request (Sys.syncDir (K.dir l)))).run
      (At (Renamed K i l file before rev id ino b) (.perform (.store rq) next))
      (Ended K i l file b (Cleared K i l file id) next (fun _ => revisionVersion rev)) := by
  refine Simulation.Triple.step (fun r => Ended K i l file b (Cleared K i l file id) next
    (fun _ => revisionVersion rev) (r.mapError .io)) ((keeps_renamed hl).stable _) ?_
    (fun _ _ _ _ _ h => h)
  rintro d s q r d₁ hi ⟨rfl,hr⟩ henv
  cases henv with
  | fault hf hr' =>
      obtain rfl := Option.some.inj hr'
      obtain ⟨mark,s₁,q₁,ha,hs,hi₁,hg,hc,hd⟩ := hr.abandon hl hw (hK.reliable hf) hi
        ⟨i,.syncDir (K.dir l),.error .other⟩ (.io .other)
      exact ⟨mark,s₁,q₁,ha,hs,hi₁,hg,hc,hd⟩
  | exec he =>
      obtain ⟨rfl,rfl⟩ := Prod.mk.inj (Option.some.inj he)
      obtain ⟨hi₀,hg₀⟩ := syncDir_step hi (K.dir l) i
      obtain ⟨hi₁,hg,hacq⟩ := hr.commit hl hi₀ hg₀ rfl rfl rfl
      refine ⟨_,_,_,.emit (.store (Ideal.step_wrote hw hr.object hr.fresh.unused)),?_,hi₁,hg,rfl,
        hacq,Objects.put_self ..,hr.durable (hK.accepted l hl) _⟩
      intro a ha
      obtain rfl := Option.mem_some_iff.mp ha
      exact Shown.wrote hw _

end Renaming

section Writing

theorem writeTemporary_ended (hK : K.Sound) (hl : K.sites l) (hb : K.Admits l b)
    (hw : rq.Writes l b before) :
    (simulation K).Triple i
      (writeTemporary (K.dir l) (K.temporary l id) (K.object l) (envelope rev b)).run
      (At (fun d s => Ready K i l file before rev id d s ∧
        (¬ K.lax → d.entries (K.temporary l id) = none)) (.perform (.store rq) next))
      (Ended K i l file b (Cleared K i l file id) next (fun _ => revisionVersion rev)) := by
  refine Simulation.Triple.bindExcept ((createNew_piece hK hl).post (fun _ _ _ _ _ h => h.attempt))
    (fun ino => ?_) (fun _ _ _ _ _ h => h)
  refine Simulation.Triple.bindExcept ((writeAll_piece hK hl).post (fun _ _ _ _ _ h => h.attempt))
    (fun _ => ?_) (fun _ _ _ _ _ h => h)
  refine Simulation.Triple.assume (fun _ _ _ h => h.2.2.1) (fun hlen => ?_)
  refine Simulation.Triple.bindExcept ((syncAll_piece hK hl).post (fun _ _ _ _ _ h => h.attempt))
    (fun _ => ?_) (fun _ _ _ _ _ h => h)
  refine Simulation.Triple.bindExcept
    ((rename_piece hK hl hb hlen).post (fun _ _ _ _ _ h => h.attempt)) (fun _ => ?_)
    (fun _ _ _ _ _ h => h)
  refine Simulation.Triple.bindExcept (openDir_attempt hK hl hw) (fun opened => ?_)
    (fun _ _ _ _ _ h => h)
  refine Simulation.Triple.assume (fun _ _ _ h => h.2.1) ?_
  rintro rfl
  exact (syncDir_attempt hK hl hw).pre (fun _ _ _ _ h => ⟨h.1,h.2.2⟩)

theorem keeps_cleared (hl : K.sites l) : Keeps K i (Cleared K i l file id) :=
  (keeps_acquired hl).and (keeps_owned id)

theorem Acquired.step (h : Acquired K i l file mode made d s) (hg : Guar K i d s d₁ s)
    (hlocks : d₁.locks = d.locks) (hl : K.sites l) (hi : Inv K d s)
    (hobject : d₁.visible (K.object l) = d.visible (K.object l)) :
    Acquired K i l file mode made d₁ s := by
  refine ⟨⟨hg.lockFile l file hl h.holding.file,?_,?_⟩,fun hm => hg.dirs _ (h.dir hm),fun hm => ?_⟩
  · rw [hlocks]
    exact h.holding.held
  · rw [hlocks]
    exact h.holding.alone
  · refine (h.settled hm).congr hobject ?_
    intro k hk
    exact (hg.data k (hi.visible_lt hk) (.inr ⟨l,hl,hi.visible_kept hk⟩)).1

theorem removeFile_step (hK : K.Sound) (hl : K.sites l) {r : Except IoError Unit}
    (hi : Inv K d s) (hc : Cleared K i l file id d s)
    (henv : Env K.faults d ⟨i,.removeFile (K.temporary l id),r⟩ d₁) :
    Inv K d₁ s ∧ Guar K i d s d₁ s ∧ Acquired K i l file .exclusive True d₁ s := by
  cases henv with
  | fault hf hr => exact ⟨hi,Guar.refl i d s,hc.1⟩
  | exec he =>
      have hclear := (hi.tree.clearObject l hl).mono (Setting.dir_prefix l)
      have hdir := hc.1.dir trivial
      have hloc : d.locate (K.temporary l id) = .ok (K.temporary l id) :=
        Disk.locate_child hi.tree.wf _ hclear hdir
      have hne : K.temporary l id ≠ [] := by simp [Setting.temporary]
      have hobj : (K.object l).path ≠ K.temporary l id :=
        hK.notTemporary l l id hl hl hc.2.recent
      simp only [Disk.exec,Disk.removeFile,hloc,Disk.node_of_ne hne,Option.some.injEq] at he
      have hremoved : d.entries (K.temporary l id) ≠ some .dir →
          Inv K (d.set (K.temporary l id) none) s ∧
            Guar K i d s (d.set (K.temporary l id) none) s ∧
            Acquired K i l file .exclusive True (d.set (K.temporary l id) none) s := by
        intro hnot
        obtain ⟨hi₁,hg⟩ := removed_step hK hi hl hc.2.recent hc.2.drawn hdir hnot
        refine ⟨hi₁,hg,hc.1.step hg rfl hl hi (Disk.visible_congr (fun k => ?_))⟩
        simp [Disk.set,hobj]
      cases hn : d.entries (K.temporary l id) with
      | none =>
          simp only [hn,Prod.mk.injEq] at he
          obtain ⟨-,rfl⟩ := he
          exact ⟨hi,Guar.refl i d s,hc.1⟩
      | some n =>
          cases n with
          | dir =>
              simp only [hn,Prod.mk.injEq] at he
              obtain ⟨-,rfl⟩ := he
              exact ⟨hi,Guar.refl i d s,hc.1⟩
          | file k =>
              simp only [hn,Prod.mk.injEq] at he
              obtain ⟨-,rfl⟩ := he
              exact hremoved (by simp [hn])
          | link t =>
              simp only [hn,Prod.mk.injEq] at he
              obtain ⟨-,rfl⟩ := he
              exact hremoved (by simp [hn])

theorem nowV7_env {r : Uuid} {faults : Prop} (h : Env faults d ⟨i,.nowV7,r⟩ d₁) :
    d.drawn r = none ∧ d₁ = d.draw i r := by
  cases h with
  | nowV7 _ _ hr => exact ⟨hr,rfl⟩
  | exec he => simp [Disk.exec] at he
  | fault _ hr => simp [Sys.failure] at hr

theorem Inv.recent (hi : Inv K d s) (hid : d.drawn id = none) : ¬ K.old id :=
  fun hold => hi.old id hold hid

theorem Locked.draw (h : Locked K i l file before d s) (id : Uuid) :
    Locked K i l file before (d.draw i id) s :=
  ⟨⟨h.holding.file,h.holding.held,h.holding.alone⟩,h.dir,h.object,
    h.shows.congr rfl (fun _ _ => rfl)⟩

theorem publish_ended (hK : K.Sound) (hl : K.sites l) (hb : K.Admits l b)
    (hw : rq.Writes l b before) :
    (simulation K).Triple i (publish (K.object l) (envelope rev b)).run
      (At (fun d s => Locked K i l file before d s ∧ Fresh K i rev d s) (.perform (.store rq) next))
      (Ended K i l file b (Acquired K i l file .exclusive True) next
        (fun _ => revisionVersion rev)) := by
  rw [publish,parentOf_object (hK.accepted l hl)]
  refine Simulation.Triple.step (fun id => At (fun d s => Ready K i l file before rev id d s ∧
    (¬ K.lax → d.entries (K.temporary l id) = none)) (.perform (.store rq) next))
    (((keeps_locked hl before).and (keeps_fresh rev)).stable _) ?_ (fun id => ?_)
  · rintro d s q id d₁ hi ⟨rfl,hlock,hfresh⟩ henv
    obtain ⟨hid,rfl⟩ := nowV7_env henv
    obtain ⟨hi₁,hg⟩ := draw_step hi hid i
    refine ⟨none,s,_,.silent,by simp [simulation],hi₁,hg,rfl,⟨hlock.draw id,
      ⟨⟨hg.drawn rev i hfresh.owned.drawn,hfresh.owned.recent⟩,hfresh.unused⟩,?_,hi.recent hid⟩,?_⟩
    · simp [Disk.draw]
    · exact fun hx => hi.tree.temporaries hx l id hl hid
  · refine (writeTemporary_ended hK hl hb hw).bind (fun r => ?_)
    cases r with
    | ok u => exact fun _ _ _ _ h => h
    | error e =>
        refine Simulation.Triple.step (fun _ d s q => Acquired K i l file .exclusive True d s ∧
          ∃ r, Doubt K rq e r ∧ q = next r) ?_ ?_ (fun _ _ _ _ _ h => h)
        · rintro j hj d s d₁ s₁ q hi hi₁ hg ⟨hc,hq⟩
          exact ⟨keeps_cleared hl j hj d s d₁ s₁ hi hi₁ hg hc,hq⟩
        · rintro d s q r d₁ hi ⟨hc,hq⟩ henv
          obtain ⟨hi₁,hg,hacq⟩ := removeFile_step hK hl hi hc henv
          exact ⟨none,s,q,.silent,by simp [simulation],hi₁,hg,hacq,hq⟩

theorem write_ended (hK : K.Sound) (hl : K.sites l) (hb : K.Admits l b)
    (hw : rq.Writes l b before) :
    (simulation K).Triple i (write (K.object l) b).run
      (At (Locked K i l file before) (.perform (.store rq) next))
      (Ended K i l file b (Acquired K i l file .exclusive True) next (fun v => v)) := by
  refine Simulation.Triple.step (fun rev => At (fun d s => Locked K i l file before d s ∧
    Fresh K i rev d s) (.perform (.store rq) next)) ((keeps_locked hl before).stable _) ?_
    (fun rev => ?_)
  · rintro d s q rev d₁ hi ⟨rfl,hlock⟩ henv
    obtain ⟨hid,rfl⟩ := nowV7_env henv
    obtain ⟨hi₁,hg⟩ := draw_step hi hid i
    refine ⟨none,s,_,.silent,by simp [simulation],hi₁,hg,rfl,hlock.draw rev,
      ⟨by simp [Disk.draw],hi.recent hid⟩,?_⟩
    intro hv
    obtain ⟨id,he,hd⟩ := hi.used _ hv
    exact hd (revisionVersion_injective he ▸ hid)
  · refine (publish_ended hK hl hb hw).bind (fun r => ?_)
    cases r with
    | ok u => exact fun _ _ _ _ h => h
    | error e => exact fun _ _ _ _ h => h

end Writing

end Filesystem

end Objsds
