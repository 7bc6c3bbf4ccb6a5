import Objsds.Filesystem.Effects
import Objsds.Filesystem.Store
import Objsds.Foundation.Simulation

namespace Objsds

open Foundation

variable {ε : Type}

def Request.failed : (q : Request) → ε → q.Response ε
  | .get _, e => .error e
  | .create _ _, e => .failed e
  | .replace _ _ _, e => .failed e

def Request.uncertain : (q : Request) → ε → Version → q.Response ε
  | .get _, e, _ => .error e
  | .create _ _, e, v => .uncertain e v
  | .replace _ _ _, e, v => .uncertain e v

def Request.wrote : (q : Request) → Version → q.Response ε
  | .get _, _ => .ok none
  | .create _ _, v => .created v
  | .replace _ _ _, v => .replaced v

inductive Request.Writes (l : Location) (b : Bytes) : Request → Option Object → Prop
  | create : Writes l b (.create l b) none
  | replace (o : Object) : Writes l b (.replace l o.version b) (some o)

namespace Ideal

variable {lax : Prop} {s : State} {q : Request} {l : Location} {b : Bytes} {before : Option Object}
  {v : Version}

theorem step_failed (hlax : lax) (q : Request) (e : ε) : Step lax s q (q.failed e) s := by
  cases q with
  | get l => exact .getFailed l e hlax
  | create l b => exact .createFailed l b e hlax
  | replace l x b => exact .replaceFailed l x b e hlax

theorem step_wrote (hw : q.Writes l b before) (hb : s.objects l = before) (hv : v ∉ s.used) :
    Step (ε := ε) lax s q (q.wrote v) (s.put l ⟨b,v⟩) := by
  cases hw with
  | create => exact .created l b v hb hv
  | replace o => exact .replaced l o b v hb hv

theorem step_uncertain (hlax : lax) (hw : q.Writes l b before) (hb : s.objects l = before)
    (hv : v ∉ s.used) (e : ε) : Step lax s q (q.uncertain e v) (s.put l ⟨b,v⟩) := by
  cases hw with
  | create => exact .createUncertain l b e v hb hv hlax
  | replace o => exact .replaceUncertain l o b e v hb hv hlax

end Ideal

namespace Filesystem

-- An answer stands for the step that settles it: an object is read, a publication made durable.
def Shown (K : Setting) (x : Sigma SysReply) : Sigma (Reply StoreError) → Prop
  | ⟨.store (.get l),.ok _⟩ => x.1 = .read (K.object l)
  | ⟨.store (.create l _),.created _⟩ => x = ⟨.syncDir (K.dir l),.ok ()⟩
  | ⟨.store (.create l _),.alreadyExists _⟩ => x.1 = .read (K.object l)
  | ⟨.store (.replace l _ _),.replaced _⟩ => x = ⟨.syncDir (K.dir l),.ok ()⟩
  | ⟨.store (.replace l _ _),.conflict _⟩ => x.1 = .read (K.object l)
  | ⟨.store _,_⟩ => True
  | ⟨.nowMillis,now⟩ => x = ⟨.nowMillis,now⟩
  | ⟨.nowV7,id⟩ => x = ⟨.nowV7,id⟩

def simulation (K : Setting) : Simulation SysReply (Reply StoreError) Disk Ideal.State where
  env := Env K.faults
  env' := (Ideal.store StoreError K.lax).Env
  inv := Inv K
  guar := Guar K
  shows := fun ev mark => ∀ a ∈ mark, Shown K ev.answer a.answer

variable {K : Setting} {i : ℕ} {l : Location} {id : Uuid} {ino : ℕ} {d : Disk} {s : Ideal.State}

abbrev Fact := Disk → Ideal.State → Prop

def Keeps (K : Setting) (i : ℕ) (P : Fact) : Prop :=
  ∀ j, j ≠ i → ∀ d s d₁ s₁, Inv K d s → Inv K d₁ s₁ → Guar K j d s d₁ s₁ → P d s → P d₁ s₁

def At {β : Type} (P : Fact) (q₀ : Action StoreError β) :
    Assertion (Reply StoreError) Disk Ideal.State β :=
  fun d s q => q = q₀ ∧ P d s

theorem Keeps.stable {β : Type} {P : Fact} (h : Keeps K i P) (q₀ : Action StoreError β) :
    (simulation K).Stable i (At P q₀) := by
  rintro j hj d s d₁ s₁ q hi hi₁ hg ⟨hq,hp⟩
  exact ⟨hq,h j hj d s d₁ s₁ hi hi₁ hg hp⟩

theorem Keeps.and {P Q : Fact} (h : Keeps K i P) (h' : Keeps K i Q) :
    Keeps K i (fun d s => P d s ∧ Q d s) :=
  fun j hj d s d₁ s₁ hi hi₁ hg hp =>
    ⟨h j hj d s d₁ s₁ hi hi₁ hg hp.1,h' j hj d s d₁ s₁ hi hi₁ hg hp.2⟩

theorem Keeps.imp {φ : Prop} {P : Fact} (h : Keeps K i P) : Keeps K i (fun d s => φ → P d s) :=
  fun j hj d s d₁ s₁ hi hi₁ hg hp hφ => h j hj d s d₁ s₁ hi hi₁ hg (hp hφ)

theorem Keeps.given {φ : Prop} {P : Fact} (h : Keeps K i P) : Keeps K i (fun d s => φ ∧ P d s) :=
  fun j hj d s d₁ s₁ hi hi₁ hg hp => ⟨hp.1,h j hj d s d₁ s₁ hi hi₁ hg hp.2⟩

def Free (i : ℕ) : Fact := fun d _ => ∀ ino mode, (i,mode) ∉ d.locks ino

def IsDir (p : Path) : Fact := fun d _ => d.node p = some .dir

structure Holding (K : Setting) (i : ℕ) (l : Location) (ino : ℕ) (mode : LockMode) (d : Disk)
    (s : Ideal.State) : Prop where
  file : d.entries (K.lock l) = some (.file ino)
  held : (i,mode) ∈ d.locks ino
  alone : ∀ k m, (i,m) ∈ d.locks k → k = ino

-- The lock is held for writing and the object at the location is known.
structure Locked (K : Setting) (i : ℕ) (l : Location) (ino : ℕ) (current : Option Object) (d : Disk)
    (s : Ideal.State) : Prop where
  holding : Holding K i l ino .exclusive d s
  dir : d.node (K.dir l) = some .dir
  object : s.objects l = current
  shows : K.Shows d l current

-- The identifier was drawn in this run by this call and is not yet anybody's version.
structure Owned (K : Setting) (i : ℕ) (id : Uuid) (d : Disk) (s : Ideal.State) : Prop where
  drawn : d.drawn id = some i
  recent : ¬ K.old id

structure Fresh (K : Setting) (i : ℕ) (id : Uuid) (d : Disk) (s : Ideal.State) : Prop where
  owned : Owned K i id d s
  unused : revisionVersion id ∉ s.used

structure Staged (K : Setting) (i : ℕ) (l : Location) (id : Uuid) (ino : ℕ) (bytes : Bytes) (d : Disk)
    (s : Ideal.State) : Prop where
  owned : Owned K i id d s
  hidden : Private K i d ino
  entry : d.entries (K.temporary l id) = some (.file ino)
  data : d.data ino = bytes

def Durable (K : Setting) (l : Location) (o : Object) : Fact := fun d _ =>
  ∀ n ∈ d.kept (K.object l).path, ∃ ino, n = some (.file ino) ∧ d.synced ino = true ∧
    decode (d.data ino) = .ok o

section Stability

theorem keeps_free (i : ℕ) : Keeps K i (Free i) := by
  intro j hj d s d₁ s₁ _ _ hg hp ino mode hm
  exact hp ino mode ((hg.locks i mode ino (Ne.symm hj)).mp hm)

theorem keeps_isDir (p : Path) : Keeps K i (IsDir p) :=
  fun _ _ _ _ _ _ _ _ hg hp => hg.dirs p hp

theorem keeps_holding (hl : K.sites l) (mode : LockMode) :
    Keeps K i (Holding K i l ino mode) := by
  intro j hj d s d₁ s₁ _ _ hg hp
  refine ⟨hg.lockFile l ino hl hp.file,(hg.locks i mode ino (Ne.symm hj)).mpr hp.held,?_⟩
  intro k m hm
  exact hp.alone k m ((hg.locks i m k (Ne.symm hj)).mp hm)

theorem Holding.not_other (hp : Holding K i l ino .exclusive d s) (hi : Inv K d s) {j : ℕ}
    (hj : j ≠ i) : ¬ d.Holds (K.lock l) j .exclusive := by
  rintro ⟨k,hk,hm⟩
  obtain rfl := Node.file.inj (Option.some.inj (hp.file.symm.trans hk))
  rw [hi.exclusive ino i hp.held,List.mem_singleton] at hm
  exact hj (Prod.mk.inj hm).1

theorem Guar.shows {d d₁ : Disk} {s s₁ : Ideal.State} {j : ℕ} {o : Option Object}
    (hi : Inv K d s) (hg : Guar K j d s d₁ s₁) (hl : K.sites l)
    (hnot : ¬ d.Holds (K.lock l) j .exclusive) (h : K.Shows d l o) : K.Shows d₁ l o := by
  refine h.congr (Disk.visible_congr (hg.objects l hl hnot).2) ?_
  intro k hk
  exact (hg.data k (hi.visible_lt hk) (.inr ⟨l,hl,hi.visible_kept hk⟩)).1

theorem keeps_locked (hl : K.sites l) (current : Option Object) :
    Keeps K i (Locked K i l ino current) := by
  intro j hj d s d₁ s₁ hi hi₁ hg hp
  have hnot := hp.holding.not_other hi hj
  refine ⟨keeps_holding hl _ j hj d s d₁ s₁ hi hi₁ hg hp.holding,hg.dirs _ hp.dir,?_,?_⟩
  · rw [(hg.objects l hl hnot).1,hp.object]
  · exact hg.shows hi hl hnot hp.shows

theorem keeps_owned (id : Uuid) : Keeps K i (Owned K i id) :=
  fun _ _ _ _ _ _ _ _ hg hp => ⟨hg.drawn id i hp.drawn,hp.recent⟩

theorem keeps_fresh (id : Uuid) : Keeps K i (Fresh K i id) := by
  intro j hj d s d₁ s₁ hi hi₁ hg hp
  refine ⟨keeps_owned id j hj d s d₁ s₁ hi hi₁ hg hp.owned,?_⟩
  intro hv
  rcases hg.used _ hv with hv | ⟨id',hid,hd⟩
  · exact hp.unused hv
  · rw [← revisionVersion_injective hid,hp.owned.drawn] at hd
    exact hj (Option.some.inj hd).symm

theorem keeps_private (ino : ℕ) : Keeps K i (fun d _ => Private K i d ino) := by
  intro j hj d s d₁ s₁ _ _ hg hp
  refine ⟨by rw [hg.creator ino hp.exist,hp.own],Nat.lt_of_lt_of_le hp.exist hg.next,?_⟩
  intro l hl hm
  rcases hg.published l ino hl hm with hm | hc
  · exact hp.hidden l hl hm
  · exact hj (hc.symm.trans hp.own)

theorem keeps_staged (hl : K.sites l) (id : Uuid) (bytes : Bytes) :
    Keeps K i (Staged K i l id ino bytes) := by
  intro j hj d s d₁ s₁ hi hi₁ hg hp
  refine ⟨keeps_owned id j hj d s d₁ s₁ hi hi₁ hg hp.owned,
    keeps_private ino j hj d s d₁ s₁ hi hi₁ hg hp.hidden,?_,?_⟩
  · exact (hg.temporaries l id i hl hp.owned.recent hp.owned.drawn (Ne.symm hj)).1 ino hp.entry
  · rw [(hg.data ino hp.hidden.exist (.inl ?_)).1,hp.data]
    rw [hp.hidden.own]
    exact Ne.symm hj

theorem keeps_synced (ino : ℕ) :
    Keeps K i (fun d _ => Private K i d ino ∧ d.synced ino = true) := by
  intro j hj d s d₁ s₁ hi hi₁ hg hp
  refine ⟨keeps_private ino j hj d s d₁ s₁ hi hi₁ hg hp.1,?_⟩
  rw [(hg.data ino hp.1.exist (.inl ?_)).2,hp.2]
  rw [hp.1.own]
  exact Ne.symm hj

theorem Durable.guar {d d₁ : Disk} {s s₁ : Ideal.State} {j : ℕ} {o : Object} (hi : Inv K d s)
    (hg : Guar K j d s d₁ s₁) (hl : K.sites l) (hnot : ¬ d.Holds (K.lock l) j .exclusive)
    (h : Durable K l o d s) : Durable K l o d₁ s₁ := by
  intro n hn
  rcases hg.kept l hl hnot n hn with hn | ⟨-,hnone⟩
  · obtain ⟨k,rfl,hs,hd⟩ := h n hn
    obtain ⟨h₁,h₂⟩ := hg.data k (hi.tree.bounded _ k hn) (.inr ⟨l,hl,hn⟩)
    exact ⟨k,rfl,by rw [h₂,hs],by rw [h₁,hd]⟩
  · have hcur := hi.tree.current (K.object l).path
    rw [hnone] at hcur
    obtain ⟨k,hk,-⟩ := h none hcur
    simp at hk

end Stability

end Filesystem

end Objsds
