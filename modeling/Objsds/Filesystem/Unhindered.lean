import Objsds.Filesystem.Confinement
import Objsds.Foundation.Rehearsal

namespace Objsds

open Foundation FilesystemStore

namespace Filesystem

variable {α β ε ε' : Type}

-- The lock a call holds and the number of identifiers it may still draw.
structure Allowance where
  held : Option ℕ
  draws : ℕ

def Allowance.spend (σ : Allowance) : Sys → Option Allowance
  | .lock ino _ => if σ.held = none then some ⟨some ino,σ.draws⟩ else none
  | .unlock ino => if σ.held = some ino then some ⟨none,σ.draws⟩ else none
  | .writeAll _ bytes => if bytes.length < 2 ^ 63 then some σ else none
  | .nowV7 => if σ.draws = 0 then none else some ⟨σ.held,σ.draws - 1⟩
  | _ => some σ

def Granted : (e : Sys) → SysReply e → Prop
  | .lock _ _, r => r = .ok ()
  | _, _ => True

-- The call never waits for a lock it holds and draws no more than it may.
def Unhindered (post : α → Allowance → Prop) : Fs α → Allowance → Prop
  | .done a, σ => post a σ
  | .perform e next, σ => ∃ σ', σ.spend e = some σ' ∧
      ∀ r, Granted e r → Unhindered post (next r) σ'

-- The same of a call whose requests are all of the kind `P`.
def Orderly (P : Sys → Prop) (post : α → Allowance → Prop) : Fs α → Allowance → Prop
  | .done a, σ => post a σ
  | .perform e next, σ => P e → ∃ σ', σ.spend e = some σ' ∧
      ∀ r, Granted e r → Orderly P post (next r) σ'

theorem Orderly.unhindered {post : α → Allowance → Prop} {p : Fs α} {σ : Allowance}
    (h : Orderly (fun _ => True) post p σ) : Unhindered post p σ := by
  induction p generalizing σ with
  | done a => exact h
  | perform e next ih =>
      obtain ⟨σ',hs,hn⟩ := h trivial
      exact ⟨σ',hs,fun r hr => ih r (hn r hr)⟩

theorem Unhindered.map {post : α → Allowance → Prop} {σ : Allowance} {p : Fs β} {f : β → α}
    (h : Unhindered (fun b => post (f b)) p σ) : Unhindered post (f <$> p) σ := by
  rw [map_eq_pure_bind]
  induction p generalizing σ with
  | done b => exact h
  | perform e next ih =>
      obtain ⟨σ',hs,hn⟩ := h
      exact ⟨σ',hs,fun r hr => ih r (hn r hr)⟩

namespace Orderly

variable {P : Sys → Prop} {post : α → Allowance → Prop} {σ : Allowance}

theorem bind {p : Fs β} {f : β → Fs α} (h : Orderly P (fun b => Orderly P post (f b)) p σ) :
    Orderly P post (p >>= f) σ := by
  induction p generalizing σ with
  | done b => exact h
  | perform e next ih =>
      intro he
      obtain ⟨σ',hs,hn⟩ := h he
      exact ⟨σ',hs,fun r hr => ih r (hn r hr)⟩

theorem mono {post' : α → Allowance → Prop} {p : Fs α} (h : Orderly P post p σ)
    (hp : ∀ a σ, post a σ → post' a σ) : Orderly P post' p σ := by
  induction p generalizing σ with
  | done a => exact hp a σ h
  | perform e next ih =>
      intro he
      obtain ⟨σ',hs,hn⟩ := h he
      exact ⟨σ',hs,fun r hr => ih r (hn r hr)⟩

theorem map {p : Fs β} {f : β → α} (h : Orderly P (fun b => post (f b)) p σ) :
    Orderly P post (f <$> p) σ := by
  rw [map_eq_pure_bind]
  exact bind h

theorem bindExcept {x : FsResult ε β} {f : β → FsResult ε α} {post : Except ε α → Allowance → Prop}
    {mid : Except ε β → Allowance → Prop} (h : Orderly P mid x.run σ)
    (hok : ∀ b σ, mid (.ok b) σ → Orderly P post (f b).run σ)
    (herr : ∀ e σ, mid (.error e) σ → post (.error e) σ) : Orderly P post (x >>= f).run σ := by
  rw [ExceptT.run_bind]
  refine bind (h.mono (fun r σ hr => ?_))
  cases r with
  | ok b => exact hok b σ hr
  | error e => exact herr e σ hr

theorem adapt {x : FsResult ε α} (wrap : ε → ε') {post : Except ε' α → Allowance → Prop}
    (h : Orderly P (fun r => post (r.mapError wrap)) x.run σ) :
    Orderly P post (ExceptT.adapt wrap x).run σ :=
  map h

end Orderly

def Plain (e : Sys) : Prop := ∀ σ : Allowance, σ.spend e = some σ

section Requests

variable {P : Sys → Prop} {σ : Allowance} {n : ℕ}

theorem orderly_plain {p : Fs α} (h : p.Only Plain) : Orderly P (fun _ τ => τ = σ) p σ := by
  induction p with
  | done a => exact rfl
  | perform e next ih => exact fun _ => ⟨σ,h.1 σ,fun r _ => ih r (h.2 r)⟩

theorem Orderly.plain {x : FsResult ε β} {f : β → FsResult ε α}
    {post : Except ε α → Allowance → Prop} (hx : x.run.Only Plain)
    (hok : ∀ b, Orderly P post (f b).run σ) (herr : ∀ e, post (.error e) σ) :
    Orderly P post (x >>= f).run σ := by
  refine (orderly_plain hx).bindExcept (fun b τ hτ => ?_) (fun e τ hτ => ?_)
  · rw [hτ]
    exact hok b
  · rw [hτ]
    exact herr e

theorem plain_createDirAll (path : Path) : (io (createDirAll path)).run.Only Plain :=
  only_io (only_createDirAll path (fun _ _ => rfl) (fun _ _ => rfl))

theorem orderly_acquire (path : Path) (mode : LockMode) (hσ : σ.held = none) :
    Orderly P (fun r τ => match r with
      | .ok ino => τ = ⟨some ino,σ.draws⟩
      | .error _ => τ = σ) (ObjectLock.acquire path mode).run σ := by
  refine .plain (only_parentOf path) (fun dir => ?_) (fun _ => rfl)
  refine .plain (plain_createDirAll dir) (fun _ => ?_) (fun _ => rfl)
  refine .plain (only_io (only_request (fun _ => rfl))) (fun ino => ?_) (fun _ => rfl)
  refine fun _ => ⟨⟨some ino,σ.draws⟩,if_pos hσ,fun r hr => ?_⟩
  obtain rfl : r = .ok () := hr
  exact rfl

theorem orderly_writeTemporary {dir temporary : Path} {path : Target} {encoded : Bytes}
    (hlen : ∀ ino, P (.writeAll ino encoded) → encoded.length < 2 ^ 63) :
    Orderly P (fun _ τ => τ = σ) (writeTemporary dir temporary path encoded).run σ := by
  refine .plain (only_io (only_request (fun _ => rfl))) (fun file => ?_) (fun _ => rfl)
  have hwrite : Orderly P (fun _ τ => τ = σ)
      (io (Program.request (Sys.writeAll file encoded))).run σ :=
    fun he => ⟨σ,if_pos (hlen file he),fun _ _ => rfl⟩
  refine hwrite.bindExcept (fun _ τ hτ => ?_) (fun _ _ hτ => hτ)
  subst hτ
  refine .plain (only_io (only_request (fun _ => rfl))) (fun _ => ?_) (fun _ => rfl)
  refine .plain (only_io (only_request (fun _ => rfl))) (fun _ => ?_) (fun _ => rfl)
  refine .plain (only_io (only_request (fun _ => rfl))) (fun _ => ?_) (fun _ => rfl)
  exact orderly_plain (only_io (only_request (fun _ => rfl)))

theorem orderly_draw {f : Uuid → Fs α} {post : α → Allowance → Prop} (hσ : n + 1 ≤ σ.draws)
    (h : ∀ id τ, τ.held = σ.held → n ≤ τ.draws → Orderly P post (f id) τ) :
    Orderly P post (.perform .nowV7 f) σ := by
  have hpos : σ.draws ≠ 0 := by omega
  refine fun _ => ⟨⟨σ.held,σ.draws - 1⟩,if_neg hpos,fun id _ => h id _ rfl ?_⟩
  change n ≤ σ.draws - 1
  omega

theorem orderly_publish {path : Target} {encoded : Bytes}
    (hlen : ∀ ino, P (.writeAll ino encoded) → encoded.length < 2 ^ 63) (hσ : n + 1 ≤ σ.draws) :
    Orderly P (fun _ τ => τ.held = σ.held ∧ n ≤ τ.draws) (publish path encoded).run σ := by
  refine .plain (only_parentOf _) (fun dir => ?_) (fun _ => ⟨rfl,by omega⟩)
  refine orderly_draw hσ (fun id τ hheld hdraws => ?_)
  change Orderly P _ ((writeTemporary dir (dir ++ [temporaryName id]) path encoded).run >>= _) _
  refine Orderly.bind ((orderly_writeTemporary hlen).mono (fun r τ' hτ => ?_))
  subst hτ
  cases r with
  | ok u => exact ⟨hheld,hdraws⟩
  | error e => exact fun _ => ⟨τ',rfl,fun _ _ => ⟨hheld,hdraws⟩⟩

theorem orderly_write {path : Target} {b : Bytes}
    (hlen : ∀ rev ino, P (.writeAll ino (envelope rev b)) → (envelope rev b).length < 2 ^ 63)
    (hσ : n + 2 ≤ σ.draws) :
    Orderly P (fun _ τ => τ.held = σ.held ∧ n ≤ τ.draws) (write path b).run σ := by
  refine orderly_draw (n := n + 1) hσ (fun rev τ hheld hdraws => ?_)
  rw [← hheld]
  exact (orderly_publish (hlen rev) hdraws).bindExcept (fun _ _ hτ => hτ) (fun _ _ hτ => hτ)

theorem plain_readPath (path : Target) : (readPath path).Only Plain := by
  refine ⟨fun _ => rfl,fun r => ?_⟩
  rcases r with (e | b)
  · cases e <;> trivial
  · trivial

theorem plain_objectPath (root : Path) (l : Location) : (objectPath root l).run.Only Plain := by
  refine (objectPath_metadata root l).mono (fun e he => ?_)
  obtain ⟨path,rfl⟩ := he
  exact fun _ => rfl

theorem plain_preparePath (self : FilesystemStore) (l : Location) :
    (self.preparePath l).run.Only Plain := by
  refine only_bindExcept (plain_objectPath _ _) (fun path => ?_)
  refine only_bindExcept (only_parentOf _) (fun dir => ?_)
  refine only_bindExcept (plain_createDirAll dir) (fun _ => ?_)
  exact only_bindExcept (only_reject _ _ (fun _ _ => rfl)) (fun _ => trivial)

theorem orderly_holding {ino : ℕ} {body : Fs α} {post : Allowance → Prop}
    (hbody : Orderly P (fun _ τ => τ.held = some ino ∧ post ⟨none,τ.draws⟩) body σ) :
    Orderly P (fun _ τ => post τ) (ObjectLock.holding ino body) σ := by
  refine Orderly.bind (hbody.mono (fun r τ hτ => ?_))
  exact fun _ => ⟨⟨none,τ.draws⟩,if_pos hτ.1,fun _ _ => hτ.2⟩

theorem orderly_get (self : FilesystemStore) (l : Location) (hσ : σ.held = none) :
    Orderly P (fun _ τ => τ = σ) (self.get l) σ := by
  refine .plain (plain_objectPath _ _) (fun path => ?_) (fun _ => rfl)
  refine (orderly_acquire _ _ hσ).bindExcept (fun ino τ hτ => ?_) (fun _ _ hτ => hτ)
  obtain rfl : τ = ⟨some ino,σ.draws⟩ := hτ
  refine orderly_holding ((orderly_plain (plain_readPath path)).mono (fun _ τ hτ => ?_))
  rw [hτ,← hσ]
  exact ⟨rfl,rfl⟩

theorem orderly_locking {wrap : StoreError → ε} {body : Target → Fs (Except ε α)}
    (self : FilesystemStore) (l : Location) (hσ : σ.held = none) (hdraws : n ≤ σ.draws)
    (hbody : ∀ path τ, τ.draws = σ.draws →
      Orderly P (fun _ τ' => τ'.held = τ.held ∧ n ≤ τ'.draws) (body path) τ) :
    Orderly P (fun _ τ => τ.held = none ∧ n ≤ τ.draws) (ExceptT.run do
      let path ← ExceptT.adapt wrap (self.preparePath l)
      let lock ← ExceptT.adapt wrap (ObjectLock.acquire (lockPath self.root l) .exclusive)
      ExceptT.mk (ObjectLock.holding lock (body path))) σ := by
  refine .plain (only_adapt _ (plain_preparePath self l)) (fun path => ?_) (fun _ => ⟨hσ,hdraws⟩)
  have hlock : Orderly P (fun r τ => match r with
      | .ok ino => τ = ⟨some ino,σ.draws⟩
      | .error _ => τ = σ)
      (ExceptT.adapt wrap (ObjectLock.acquire (lockPath self.root l) .exclusive)).run σ := by
    refine Orderly.adapt _ ((orderly_acquire _ _ hσ).mono (fun r τ hτ => ?_))
    cases r <;> exact hτ
  refine hlock.bindExcept (fun ino τ hτ => ?_) (fun _ τ hτ => ?_)
  · obtain rfl : τ = ⟨some ino,σ.draws⟩ := hτ
    refine orderly_holding ((hbody path ⟨some ino,σ.draws⟩ rfl).mono (fun _ τ' hτ' => ?_))
    exact ⟨hτ'.1,rfl,hτ'.2⟩
  · obtain rfl : τ = σ := hτ
    exact ⟨hσ,hdraws⟩

theorem orderly_create (self : FilesystemStore) (l : Location) {b : Bytes}
    (hlen : ∀ rev ino, P (.writeAll ino (envelope rev b)) → (envelope rev b).length < 2 ^ 63)
    (hσ : σ.held = none) (hdraws : n + 2 ≤ σ.draws) :
    Orderly P (fun _ τ => τ.held = none ∧ n ≤ τ.draws) (self.create l b) σ := by
  refine orderly_locking self l hσ (by omega) (fun path τ hτ => ?_)
  refine .plain (only_adapt _ (plain_readPath path)) (fun current => ?_) (fun _ => ⟨rfl,by omega⟩)
  cases current with
  | some o => exact ⟨rfl,by omega⟩
  | none => exact Orderly.adapt _ (orderly_write hlen (by omega))

theorem orderly_replace (self : FilesystemStore) (l : Location) (x : Version) {b : Bytes}
    (hlen : ∀ rev ino, P (.writeAll ino (envelope rev b)) → (envelope rev b).length < 2 ^ 63)
    (hσ : σ.held = none) (hdraws : n + 2 ≤ σ.draws) :
    Orderly P (fun _ τ => τ.held = none ∧ n ≤ τ.draws) (self.replace l x b) σ := by
  refine orderly_locking self l hσ (by omega) (fun path τ hτ => ?_)
  refine .plain (only_adapt _ (plain_readPath path)) (fun current => ?_) (fun _ => ⟨rfl,by omega⟩)
  split
  · exact ⟨rfl,by omega⟩
  · exact Orderly.adapt _ (orderly_write hlen (by omega))

theorem unhindered_create (self : FilesystemStore) (l : Location) {b : Bytes}
    (hlen : b.length + 33 < 2 ^ 63) :
    Unhindered (fun _ σ => σ.held = none) (self.create l b) ⟨none,n + 2⟩ := by
  have henvelope : ∀ rev, (envelope rev b).length < 2 ^ 63 := by
    intro rev
    simp only [envelope,List.length_append,List.length_cons,toBeBytes_length,MAGIC,List.length_nil]
    omega
  have h := orderly_create (P := fun _ => True) (n := n) (σ := ⟨none,n + 2⟩) self l
    (fun rev _ _ => henvelope rev) rfl (Nat.le_refl _)
  exact (h.mono (fun _ _ hτ => hτ.1)).unhindered

end Requests

section Alone

variable {d d' : Disk} {i : ℕ} {e : Sys} {r : SysReply e}

theorem rename_frame (d : Disk) (source : Path) (target : Target) :
    (d.rename source target).2.locks = d.locks ∧ (d.rename source target).2.drawn = d.drawn := by
  unfold Disk.rename
  split
  · exact ⟨rfl,rfl⟩
  · exact ⟨rfl,rfl⟩
  · split
    · exact ⟨rfl,rfl⟩
    · split
      · exact ⟨rfl,rfl⟩
      · split
        · exact ⟨rfl,rfl⟩
        · split <;> exact ⟨rfl,rfl⟩
    · exact ⟨rfl,rfl⟩

-- Every request but these is always answered and leaves the locks and the identifiers alone.
theorem exec_answers (d : Disk) (i : ℕ) (e : Sys) (hl : ∀ ino mode, e ≠ .lock ino mode)
    (hu : ∀ ino, e ≠ .unlock ino) (hw : ∀ ino bytes, e = .writeAll ino bytes → bytes.length < 2 ^ 63)
    (hv : e ≠ .nowV7) : ∃ r d', Env False d ⟨i,e,r⟩ d' ∧ d'.locks = d.locks ∧ d'.drawn = d.drawn := by
  cases e with
  | symlinkMetadata p | isDir p | read t | canonicalize p | openDir p =>
      exact ⟨_,d,.exec rfl,rfl,rfl⟩
  | syncAll ino | syncDir p => exact ⟨_,_,.exec rfl,rfl,rfl⟩
  | nowMillis => exact ⟨_,d,.nowMillis i 0,rfl,rfl⟩
  | lock ino mode => exact absurd rfl (hl ino mode)
  | unlock ino => exact absurd rfl (hu ino)
  | nowV7 => exact absurd rfl hv
  | writeAll ino bytes => exact ⟨_,_,.exec (if_pos (hw ino bytes rfl)),rfl,rfl⟩
  | rename source target => exact ⟨_,_,.exec rfl,rename_frame d source target⟩
  | mkdir p =>
      refine ⟨_,_,.exec rfl,?_⟩
      split
      · exact ⟨rfl,rfl⟩
      · split <;> exact ⟨rfl,rfl⟩
  | openLock p =>
      refine ⟨_,_,.exec rfl,?_⟩
      split
      · exact ⟨rfl,rfl⟩
      · split <;> exact ⟨rfl,rfl⟩
  | createNew p =>
      refine ⟨_,_,.exec rfl,?_⟩
      split
      · exact ⟨rfl,rfl⟩
      · split <;> exact ⟨rfl,rfl⟩
  | removeFile p =>
      refine ⟨_,_,.exec rfl,?_⟩
      split
      · exact ⟨rfl,rfl⟩
      · split <;> exact ⟨rfl,rfl⟩

structure Alone (i limit : ℕ) (σ : Allowance) (d : Disk) : Prop where
  locks : ∀ ino, d.locks ino = [] ∨ (σ.held = some ino ∧ ∀ x ∈ d.locks ino, x.1 = i)
  drawn : ∀ id, d.drawn id ≠ none → id.val + σ.draws < limit

theorem Alone.step {limit : ℕ} {σ σ' : Allowance} (h : Alone i limit σ d)
    (hlimit : limit ≤ 2 ^ 128) (hle : σ.draws ≤ limit) (hs : σ.spend e = some σ') :
    ∃ r d', Env False d ⟨i,e,r⟩ d' ∧ Granted e r ∧ Alone i limit σ' d' ∧ σ'.draws ≤ limit := by
  have hframe : σ' = σ → (∀ r, Granted e r) → (∀ ino mode, e ≠ .lock ino mode) →
      (∀ ino, e ≠ .unlock ino) → (∀ ino bytes, e = .writeAll ino bytes → bytes.length < 2 ^ 63) →
      e ≠ .nowV7 →
      ∃ r d', Env False d ⟨i,e,r⟩ d' ∧ Granted e r ∧ Alone i limit σ' d' ∧ σ'.draws ≤ limit := by
    rintro rfl hr hl hu hw hv
    obtain ⟨r,d',henv,hlocks,hdrawn⟩ := exec_answers d i e hl hu hw hv
    exact ⟨r,d',henv,hr r,⟨by rw [hlocks]; exact h.locks,by rw [hdrawn]; exact h.drawn⟩,hle⟩
  cases e with
  | lock ino mode =>
      simp only [Allowance.spend] at hs
      split at hs
      · rename_i hfree
        obtain rfl := Option.some.inj hs
        have hnone : ∀ k, d.locks k = [] := by
          intro k
          rcases h.locks k with hk | ⟨hk,-⟩
          · exact hk
          · simp [hfree] at hk
        have hgrant : d.grantable ino mode = true := by
          cases mode <;> simp [Disk.grantable,hnone]
        refine ⟨.ok (),d.lock i ino mode,.exec (if_pos hgrant),rfl,⟨fun k => ?_,h.drawn⟩,hle⟩
        by_cases hk : k = ino
        · subst hk
          exact .inr ⟨rfl,by simp [Disk.lock,hnone]⟩
        · exact .inl (by simp [Disk.lock,hk,hnone])
      · simp at hs
  | unlock ino =>
      simp only [Allowance.spend] at hs
      split at hs
      · rename_i hheld
        obtain rfl := Option.some.inj hs
        refine ⟨(),d.unlock i ino,.exec rfl,trivial,⟨fun k => .inl ?_,h.drawn⟩,hle⟩
        by_cases hk : k = ino
        · subst hk
          rcases h.locks k with hnil | ⟨-,hown⟩
          · simp [Disk.unlock,hnil]
          · simpa [Disk.unlock] using hown
        · rcases h.locks k with hnil | ⟨hk',-⟩
          · simp [Disk.unlock,hk,hnil]
          · rw [hheld] at hk'
            exact absurd (Option.some.inj hk').symm hk
      · simp at hs
  | nowV7 =>
      simp only [Allowance.spend] at hs
      split at hs
      · simp at hs
      · rename_i hpos
        obtain rfl := Option.some.inj hs
        let id : Uuid := ⟨limit - σ.draws,by omega⟩
        have hfresh : d.drawn id = none := by
          by_contra hne
          have : limit - σ.draws + σ.draws < limit := h.drawn id hne
          omega
        refine ⟨id,d.draw i id,.nowV7 i id hfresh,trivial,⟨h.locks,fun id' hid => ?_⟩,?_⟩
        · by_cases heq : id' = id
          · subst heq
            change limit - σ.draws + (σ.draws - 1) < limit
            omega
          · have := h.drawn id' (by simpa [Disk.draw,heq] using hid)
            change id'.val + (σ.draws - 1) < limit
            omega
        · change σ.draws - 1 ≤ limit
          omega
  | writeAll ino bytes =>
      simp only [Allowance.spend] at hs
      split at hs
      · rename_i hlen
        refine hframe (Option.some.inj hs).symm (fun _ => trivial) (by simp) (by simp) ?_ (by simp)
        intro ino' bytes' heq
        obtain ⟨rfl,rfl⟩ := Sys.writeAll.inj heq
        exact hlen
      · simp at hs
  | _ =>
      exact hframe (Option.some.inj hs).symm (fun _ => trivial) (by simp) (by simp) (by simp)
        (by simp)

theorem Unhindered.completes {α : Type} {post : α → Allowance → Prop} {p : Fs α} {σ : Allowance}
    {limit : ℕ} {calls : ℕ → Fs α} (h : Unhindered post p σ) (hcall : calls i = p)
    (ha : Alone i limit σ d) (hlimit : limit ≤ 2 ^ 128) (hle : σ.draws ≤ limit) :
    ∃ tr d' a σ', (∀ ev ∈ tr, ev.call = i) ∧
      Run (Env False) ⟨d,calls⟩ tr ⟨d',Function.update calls i (.done a)⟩ ∧
      post a σ' ∧ Alone i limit σ' d' := by
  induction p generalizing σ d calls with
  | done a =>
      refine ⟨[],d,a,σ,by simp,?_,h,ha⟩
      rw [← hcall,Function.update_eq_self]
      exact .nil
  | perform e next ih =>
      obtain ⟨σ',hs,hn⟩ := h
      obtain ⟨r,d₁,henv,hr,ha₁,hle₁⟩ := ha.step hlimit hle hs
      have hstep := @Step.perform _ _ _ _ (Env False) ⟨d,calls⟩ ⟨i,e,r⟩ next d₁ hcall henv
      have hnext : Function.update calls i (next r) i = next r := Function.update_self ..
      obtain ⟨tr,d',a,σ₂,hown,hrun,hpost,hend⟩ := ih r (hn r hr) hnext ha₁ hle₁
      refine ⟨⟨i,e,r⟩ :: tr,d',a,σ₂,?_,?_,hpost,hend⟩
      · intro ev hev
        rcases List.mem_cons.mp hev with rfl | hev
        · rfl
        · exact hown ev hev
      · rw [Function.update_idem] at hrun
        exact .cons hstep hrun

end Alone

theorem Orderly.asked {P : Sys → Prop} {post : α → Allowance → Prop} {e : Sys}
    {next : SysReply e → Fs α} {σ : Allowance} (h : Orderly P post (.perform e next) σ) (he : P e) :
    ∃ σ', σ.spend e = some σ' ∧ ∀ r, Granted e r → Orderly P post (next r) σ' := h he

theorem Orderly.ask {P : Sys → Prop} {post : α → Allowance → Prop} {e : Sys}
    {next : SysReply e → Fs α} {σ σ' : Allowance} (hs : σ.spend e = some σ')
    (h : ∀ r, Granted e r → Orderly P post (next r) σ') : Orderly P post (.perform e next) σ :=
  fun _ => ⟨σ',hs,h⟩

theorem Orderly.done {P : Sys → Prop} {post : α → Allowance → Prop} {a : α} {σ : Allowance}
    (h : post a σ) : Orderly P post (.done a) σ := h

theorem Orderly.finished {P : Sys → Prop} {post : α → Allowance → Prop} {a : α} {σ : Allowance}
    (h : Orderly P post (.done a) σ) : post a σ := h

-- From here on a call is not run to see that nothing hinders it.
attribute [irreducible] Unhindered Orderly

section Rehearsals

-- The identifiers that will be handed out, in this order; nothing fails.
structure Script where
  ids : List Uuid
  disk : Disk

def Script.answer (s : Script) (i : ℕ) : (e : Sys) → Option (SysReply e × Script)
  | .nowV7 =>
      match s.ids with
      | [] => none
      | id :: ids => if s.disk.drawn id = none then some (id,⟨ids,s.disk.draw i id⟩) else none
  | e => (s.disk.exec i e).map (fun x => (x.1,{ s with disk := x.2 }))

theorem Script.answer_env {s s' : Script} {i : ℕ} {e : Sys} {r : SysReply e}
    (h : s.answer i e = some (r,s')) : Env False s.disk ⟨i,e,r⟩ s'.disk := by
  by_cases he : e = .nowV7
  · subst he
    obtain ⟨ids,d⟩ := s
    cases ids with
    | nil => simp [Script.answer] at h
    | cons id ids =>
        simp only [Script.answer] at h
        split at h
        · obtain ⟨rfl,rfl⟩ := Prod.mk.inj (Option.some.inj h)
          exact .nowV7 i id ‹_›
        · simp at h
  · have hexec : s.answer i e = (s.disk.exec i e).map (fun x => (x.1,{ s with disk := x.2 })) := by
      cases e with
      | nowV7 => exact absurd rfl he
      | _ => rfl
    rw [hexec] at h
    obtain ⟨⟨r',d'⟩,hx,heq⟩ := Option.map_eq_some_iff.mp h
    obtain ⟨rfl,rfl⟩ := Prod.mk.inj heq
    exact .exec hx

theorem Script.run {turns : List (ℕ × ℕ)} {c : Config Script SysReply α}
    {good : Trace SysReply → Config Disk SysReply α → Bool}
    (h : plays Script.answer Script.disk turns c good = true) :
    ∃ tr c', Run (Env False) ⟨c.world.disk,c.calls⟩ tr c' ∧ good tr c' = true :=
  plays_run Script.answer_env h

theorem Env.faulty {d d' : Disk} {ev : Event SysReply} (h : Env False d ev d') : Env True d ev d' := by
  cases h with
  | exec he => exact .exec he
  | nowMillis i now => exact .nowMillis i now
  | nowV7 i id hid => exact .nowV7 i id hid
  | fault hf => exact hf.elim
  | shortWrite hf => exact hf.elim

end Rehearsals

end Filesystem

end Objsds
