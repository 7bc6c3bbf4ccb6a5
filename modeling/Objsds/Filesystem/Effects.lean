import Objsds.Filesystem.Steps

namespace Objsds

open Foundation

namespace Filesystem

variable {K : Setting} {d d₁ : Disk} {s : Ideal.State} {i : ℕ} {l : Location} {id : Uuid} {ino : ℕ}

structure Private (K : Setting) (i : ℕ) (d : Disk) (ino : ℕ) : Prop where
  own : d.creator ino = i
  exist : ino < d.next
  hidden : ∀ l, K.sites l → some (.file ino) ∉ d.kept (K.object l).path

section Files

theorem write_step (h : Inv K d s) (hp : Private K i d ino) (he : d₁.entries = d.entries)
    (hk : d₁.kept = d.kept) (hnext : d₁.next = d.next) (hlocks : d₁.locks = d.locks)
    (hdrawn : d₁.drawn = d.drawn) (hcreator : d₁.creator = d.creator)
    (hdata : ∀ k, k ≠ ino → d₁.data k = d.data k ∧ d₁.synced k = d.synced k) :
    Inv K d₁ s ∧ Guar K i d s d₁ s := by
  constructor
  · refine h.keep he ?_ ?_ hnext ?_ ?_ ?_ ?_ ?_
    · rw [hk]
      exact fun _ _ hm => hm
    · rw [hk]
      exact h.tree.current
    · rw [hdrawn]
      exact fun _ hid => hid
    · rw [hlocks]
      exact h.idle
    · rw [hlocks]
      exact h.exclusive
    · intro l k hl hm
      refine hdata k ?_
      rintro rfl
      exact hp.hidden l hl hm
    · intro l hl hfree
      refine h.settled l hl ?_
      rintro j ⟨k,hk',hj⟩
      exact hfree j ⟨k,by rw [he,hk'],by rw [hlocks]; exact hj⟩
  · refine Guar.keep he ?_ ?_ ?_ hcreator hnext ?_
    · rw [hk]
      exact fun _ _ hm => hm
    · rw [hlocks]
      exact fun _ _ _ _ => .rfl
    · rintro k - hk'
      refine hdata k ?_
      rintro rfl
      rcases hk' with hk' | ⟨l,hl,hm⟩
      · exact hk' hp.own
      · exact hp.hidden l hl hm
    · rw [hdrawn]
      exact fun _ _ hid => hid

theorem append_step (h : Inv K d s) (hp : Private K i d ino) (bytes : Bytes) :
    Inv K (d.append ino bytes) s ∧ Guar K i d s (d.append ino bytes) s := by
  refine write_step h hp rfl rfl rfl rfl rfl rfl ?_
  intro k hk
  simp [Disk.append,hk]

theorem syncAll_step (h : Inv K d s) (hp : Private K i d ino) :
    Inv K (d.syncAll ino) s ∧ Guar K i d s (d.syncAll ino) s := by
  refine write_step h hp rfl rfl rfl rfl rfl rfl ?_
  intro k hk
  simp [Disk.syncAll,hk]

theorem Disk.syncDir_kept {p q : Path} {n : Option Node} (hcur : ∀ q, d.entries q ∈ d.kept q)
    (hn : n ∈ (d.syncDir p).kept q) : n ∈ d.kept q := by
  simp only [Disk.syncDir] at hn
  split at hn
  · rw [List.mem_singleton.mp hn]
    exact hcur q
  · exact hn

theorem syncDir_step (h : Inv K d s) (p : Path) (i : ℕ) :
    Inv K (d.syncDir p) s ∧ Guar K i d s (d.syncDir p) s := by
  have hkept : ∀ q n, n ∈ (d.syncDir p).kept q → n ∈ d.kept q :=
    fun q n => Disk.syncDir_kept h.tree.current
  constructor
  · refine h.keep rfl hkept ?_ rfl (fun _ hid => hid) h.idle h.exclusive
      (fun _ _ _ _ => ⟨rfl,rfl⟩) h.settled
    intro q
    simp only [Disk.syncDir]
    split
    · exact List.mem_singleton_self _
    · exact h.tree.current q
  · exact Guar.keep rfl hkept (fun _ _ _ _ => .rfl) (fun _ _ _ => ⟨rfl,rfl⟩) rfl rfl
      (fun _ _ hid => hid)

end Files

section Locks

theorem Disk.mem_lock {j k : ℕ} {m mode : LockMode} :
    (j,m) ∈ (d.lock i ino mode).locks k ↔ (k = ino ∧ j = i ∧ m = mode) ∨ (j,m) ∈ d.locks k := by
  by_cases hk : k = ino
  · subst hk
    simp [Disk.lock]
  · simp [Disk.lock,hk]

theorem Disk.mem_unlock {j k : ℕ} {m : LockMode} :
    (j,m) ∈ (d.unlock i ino).locks k ↔ (j,m) ∈ d.locks k ∧ (k = ino → j ≠ i) := by
  by_cases hk : k = ino
  · subst hk
    simp [Disk.unlock]
  · simp [Disk.unlock,hk]

theorem lock_exclusive (h : Inv K d s) {mode : LockMode} (hg : d.grantable ino mode = true)
    {j k : ℕ} (hj : (j,.exclusive) ∈ (d.lock i ino mode).locks k) :
    (d.lock i ino mode).locks k = [(j,.exclusive)] := by
  by_cases hk : k = ino
  · subst hk
    cases mode with
    | exclusive =>
        have hempty : d.locks k = [] := by simpa [Disk.grantable] using hg
        rcases Disk.mem_lock.mp hj with ⟨-,rfl,-⟩ | hj
        · simp [Disk.lock,hempty]
        · simp [hempty] at hj
    | shared =>
        rcases Disk.mem_lock.mp hj with ⟨-,-,hm⟩ | hj
        · simp at hm
        · simp only [Disk.grantable,List.all_eq_true,decide_eq_true_eq] at hg
          simpa using hg _ hj
  · rcases Disk.mem_lock.mp hj with ⟨rfl,-⟩ | hj
    · exact absurd rfl hk
    · simpa [Disk.lock,hk] using h.exclusive k j hj

theorem lock_step (h : Inv K d s) (hf : d.entries (K.lock l) = some (.file ino)) {mode : LockMode}
    (hg : d.grantable ino mode = true) (i : ℕ) :
    Inv K (d.lock i ino mode) s ∧ Guar K i d s (d.lock i ino mode) s := by
  constructor
  · refine h.keep rfl (fun _ _ hm => hm) h.tree.current rfl (fun _ hid => hid) ?_
      (fun _ _ hj => lock_exclusive h hg hj) (fun _ _ _ _ => ⟨rfl,rfl⟩) ?_
    · intro k hk
      have hlt := h.tree.entries_lt hf
      have hne : k ≠ ino := by omega
      simpa [Disk.lock,hne] using h.idle k hk
    · intro l' hl' hfree
      refine h.settled l' hl' ?_
      rintro j ⟨k,hk,hj⟩
      exact hfree j ⟨k,hk,Disk.mem_lock.mpr (.inr hj)⟩
  · refine Guar.keep rfl (fun _ _ hm => hm) ?_ (fun _ _ _ => ⟨rfl,rfl⟩) rfl rfl
      (fun _ _ hid => hid)
    intro j m k hj
    rw [Disk.mem_lock]
    constructor
    · rintro (⟨-,rfl,-⟩ | hm)
      · exact absurd rfl hj
      · exact hm
    · exact .inr

theorem unlock_step (h : Inv K d s)
    (hshow : ∀ l, K.sites l → d.entries (K.lock l) = some (.file ino) →
      (i,.exclusive) ∈ d.locks ino → K.Shows d l (s.objects l)) :
    Inv K (d.unlock i ino) s ∧ Guar K i d s (d.unlock i ino) s := by
  constructor
  · refine h.keep rfl (fun _ _ hm => hm) h.tree.current rfl (fun _ hid => hid) ?_ ?_
      (fun _ _ _ _ => ⟨rfl,rfl⟩) ?_
    · intro k hk
      refine List.eq_nil_iff_forall_not_mem.mpr ?_
      rintro ⟨j,m⟩ hm
      have := (Disk.mem_unlock.mp hm).1
      rw [h.idle k hk] at this
      simp at this
    · intro k j hj
      obtain ⟨hj,hne⟩ := Disk.mem_unlock.mp hj
      have heq := h.exclusive k j hj
      by_cases hk : k = ino
      · subst hk
        simpa [Disk.unlock,heq] using hne rfl
      · simpa [Disk.unlock,hk] using heq
    · intro l hl hfree
      by_cases hheld : ∃ j, d.Holds (K.lock l) j .exclusive
      · obtain ⟨j,k,hk,hj⟩ := hheld
        by_cases hown : k = ino ∧ j = i
        · obtain ⟨rfl,rfl⟩ := hown
          exact hshow l hl hk hj
        · exact absurd ⟨k,hk,Disk.mem_unlock.mpr ⟨hj,fun h₁ h₂ => hown ⟨h₁,h₂⟩⟩⟩ (hfree j)
      · exact h.settled l hl (fun j hj => hheld ⟨j,hj⟩)
  · refine Guar.keep rfl (fun _ _ hm => hm) ?_ (fun _ _ _ => ⟨rfl,rfl⟩) rfl rfl
      (fun _ _ hid => hid)
    intro j m k hj
    rw [Disk.mem_unlock]
    exact ⟨fun hm => hm.1,fun hm => ⟨hm,fun _ => hj⟩⟩

theorem draw_step (h : Inv K d s) (hid : d.drawn id = none) (i : ℕ) :
    Inv K (d.draw i id) s ∧ Guar K i d s (d.draw i id) s := by
  have hkeep : ∀ x j, d.drawn x = some j → (d.draw i id).drawn x = some j := by
    intro x j hx
    have hne : x ≠ id := by
      rintro rfl
      rw [hid] at hx
      simp at hx
    simpa [Disk.draw,hne] using hx
  constructor
  · refine h.keep rfl (fun _ _ hm => hm) h.tree.current rfl ?_ h.idle h.exclusive
      (fun _ _ _ _ => ⟨rfl,rfl⟩) h.settled
    intro x hx
    obtain ⟨j,hj⟩ := Option.ne_none_iff_exists'.mp hx
    rw [hkeep x j hj]
    simp
  · exact Guar.keep rfl (fun _ _ hm => hm) (fun _ _ _ _ => .rfl) (fun _ _ _ => ⟨rfl,rfl⟩) rfl rfl
      hkeep

end Locks

section Publishing

theorem rename_tree (hK : K.Sound) (h : Inv K d s) (hl : K.sites l) (hold : ¬ K.old id)
    (habove : d.node (K.dir l) = some .dir) (hp : ino < d.next)
    (hdir : d.entries (K.object l).path ≠ some .dir)
    (htmp : d.entries (K.temporary l id) = some (.file ino)) :
    Tree K ((d.set (K.object l).path (some (.file ino))).set (K.temporary l id) none) := by
  obtain ⟨name,hname,-⟩ := Setting.object_split (K := K) (hK.accepted l hl)
  have hne := hK.notTemporary l l id hl hl hold
  have hfirst : Tree K (d.set (K.object l).path (some (.file ino))) := by
    refine h.tree.set rfl rfl (Nat.le_refl _) rfl (by simp [hname]) hdir ?_ (by simp) ?_ ?_ (by simp)
      ?_ (by simp) ?_
    · rw [hname,List.dropLast_concat]
      exact habove
    · rintro k hk
      obtain rfl := Node.file.inj (Option.some.inj hk)
      exact hp
    · intro l' _ hl' he
      exact absurd he (hK.notLock l l' hl hl')
    · intro hx l' _ hl' hpre
      exact absurd hpre ((hK.strict hx).apart l l' hl hl')
    · intro _ l' id' hl' hid' he
      refine absurd he (hK.notTemporary l l' id' hl hl' ?_)
      exact fun hold' => h.old id' hold' hid'
  refine hfirst.set rfl rfl (Nat.le_refl _) rfl (by simp [Setting.temporary]) ?_ ?_ (by simp)
    (by simp) (by simp) (by simp) (by simp) (by simp) (by simp)
  · simp [Disk.set,Ne.symm hne,htmp]
  · have hdirne : K.dir l ≠ (K.object l).path := by simp [hname]
    rw [Setting.temporary,List.dropLast_concat,Disk.node_update rfl hdirne]
    exact habove

theorem rename_step (hK : K.Sound) (h : Inv K d s) (hl : K.sites l) (hold : ¬ K.old id)
    (hid : d.drawn id = some i) (habove : d.node (K.dir l) = some .dir) (hp : Private K i d ino)
    (hdir : d.entries (K.object l).path ≠ some .dir)
    (htmp : d.entries (K.temporary l id) = some (.file ino))
    (hheld : d.Holds (K.lock l) i .exclusive) (hsync : d.synced ino = true)
    (horigin : K.origin l (d.data ino)) :
    Inv K ((d.set (K.object l).path (some (.file ino))).set (K.temporary l id) none) s ∧
      Guar K i d s ((d.set (K.object l).path (some (.file ino))).set (K.temporary l id) none) s := by
  have hne := hK.notTemporary l l id hl hl hold
  have hentries : ∀ q, q ≠ (K.object l).path → q ≠ K.temporary l id →
      ((d.set (K.object l).path (some (.file ino))).set (K.temporary l id) none).entries q =
        d.entries q := by
    intro q h₁ h₂
    simp [Disk.set,h₁,h₂]
  have hobject : ∀ l', K.sites l' → l' ≠ l →
      ((d.set (K.object l).path (some (.file ino))).set (K.temporary l id) none).entries
          (K.object l').path = d.entries (K.object l').path ∧
        ((d.set (K.object l).path (some (.file ino))).set (K.temporary l id) none).kept
          (K.object l').path = d.kept (K.object l').path := by
    intro l' hl' hll
    have h₁ : (K.object l').path ≠ (K.object l).path := fun he => hll (hK.separate l' l hl' hl he)
    have h₂ := hK.notTemporary l' l id hl' hl hold
    simp [Disk.set,h₁,h₂]
  have hkept : ((d.set (K.object l).path (some (.file ino))).set (K.temporary l id) none).kept
      (K.object l).path = some (.file ino) :: d.kept (K.object l).path := by
    simp [Disk.set,hne]
  have hlock : ∀ l', K.sites l' →
      ((d.set (K.object l).path (some (.file ino))).set (K.temporary l id) none).entries
        (K.lock l') = d.entries (K.lock l') := fun l' hl' =>
    hentries _ (Ne.symm (hK.notLock l l' hl hl')) (Setting.lock_ne_temporary l' l id)
  constructor
  · constructor
    · exact rename_tree hK h hl hold habove hp.exist hdir htmp
    · exact h.idle
    · exact h.exclusive
    · exact h.old
    · exact h.used
    · exact h.issued
    · intro l' hl' n hn
      by_cases hll : l' = l
      · subst hll
        rw [hkept] at hn
        rcases List.mem_cons.mp hn with rfl | hn
        · exact ⟨hsync,horigin⟩
        · exact (h.possible l' hl' n hn).congr (fun _ _ => ⟨rfl,rfl⟩)
      · rw [(hobject l' hl' hll).2] at hn
        exact (h.possible l' hl' n hn).congr (fun _ _ => ⟨rfl,rfl⟩)
    · intro l' hl' hfree
      by_cases hll : l' = l
      · subst hll
        obtain ⟨k,hk,hi⟩ := hheld
        exact absurd ⟨k,by rw [hlock l' hl',hk],hi⟩ (hfree i)
      · refine (h.settled l' hl' ?_).congr (Disk.visible_congr ?_) (fun _ _ => rfl)
        · rintro j ⟨k,hk,hj⟩
          exact hfree j ⟨k,by rw [hlock l' hl',hk],hj⟩
        · intro k
          rw [(hobject l' hl' hll).1]
  · constructor
    · intro q hq
      have h₁ : q ≠ (K.object l).path := by
        rintro rfl
        rw [Disk.node_of_ne] at hq
        · exact hdir hq
        · obtain ⟨name,hname,-⟩ := Setting.object_split (K := K) (hK.accepted l hl)
          simp [hname]
      have h₂ : q ≠ K.temporary l id := by
        rintro rfl
        rw [Disk.node_of_ne (by simp [Setting.temporary]),htmp] at hq
        simp at hq
      rw [Disk.node] at hq ⊢
      rwa [hentries q h₁ h₂]
    · intro l' k hl' hf
      rw [hlock l' hl',hf]
    · exact fun _ _ _ _ => .rfl
    · intro l' hl' hnot
      have hll : l' ≠ l := by
        rintro rfl
        exact hnot hheld
      exact ⟨rfl,fun k => by rw [(hobject l' hl' hll).1]⟩
    · intro l' hl' hnot n hn
      have hll : l' ≠ l := by
        rintro rfl
        exact hnot hheld
      rw [(hobject l' hl' hll).2] at hn
      exact .inl hn
    · intro l' k hl' hn
      by_cases hll : l' = l
      · subst hll
        rw [hkept] at hn
        rcases List.mem_cons.mp hn with hk | hn
        · obtain rfl := Node.file.inj (Option.some.inj hk)
          exact .inr hp.own
        · exact .inl hn
      · rw [(hobject l' hl' hll).2] at hn
        exact .inl hn
    · exact fun _ _ _ => ⟨rfl,rfl⟩
    · exact fun _ _ => rfl
    · exact Nat.le_refl _
    · exact fun _ _ hx => hx
    · intro l' id' j hl' hold' hid' hj
      have h₁ : K.temporary l' id' ≠ (K.object l).path :=
        Ne.symm (hK.notTemporary l l' id' hl hl' hold')
      have h₂ : K.temporary l' id' ≠ K.temporary l id := by
        intro he
        rw [Setting.temporary_inj he,hid] at hid'
        exact hj (Option.some.inj hid').symm
      rw [hentries _ h₁ h₂]
      exact ⟨fun _ hf => hf,fun _ hf => hf⟩
    · exact fun v hv => .inl hv

theorem commit_step (h : Inv K d₁ s) (hg : Guar K i d s d₁ s) (hl : K.sites l)
    (hheld : d.Holds (K.lock l) i .exclusive) (hheld₁ : d₁.Holds (K.lock l) i .exclusive)
    (hid : d.drawn id = some i) {o : Object} (ho : o.version = revisionVersion id) :
    Inv K d₁ (s.put l o) ∧ Guar K i d s d₁ (s.put l o) := by
  have hother : ∀ l', l' ≠ l → (s.put l o).objects l' = s.objects l' := by
    intro l' hll
    exact Objects.put_other o hll
  constructor
  · constructor
    · exact h.tree
    · exact h.idle
    · exact h.exclusive
    · exact h.old
    · intro v hv
      rcases List.mem_cons.mp hv with rfl | hv
      · exact ⟨id,ho,by rw [hg.drawn id i hid]; simp⟩
      · exact h.used v hv
    · intro l' o' ho'
      by_cases hll : l' = l
      · subst hll
        obtain rfl := Option.some.inj ((Objects.put_self s.objects l' o).symm.trans ho')
        exact List.mem_cons_self
      · rw [hother l' hll] at ho'
        exact List.mem_cons_of_mem _ (h.issued l' o' ho')
    · exact h.possible
    · intro l' hl' hfree
      by_cases hll : l' = l
      · subst hll
        exact absurd hheld₁ (hfree i)
      · rw [hother l' hll]
        exact h.settled l' hl' hfree
  · constructor
    · exact hg.dirs
    · exact hg.lockFile
    · exact hg.locks
    · intro l' hl' hnot
      have hll : l' ≠ l := by
        rintro rfl
        exact hnot hheld
      rw [hother l' hll]
      exact hg.objects l' hl' hnot
    · exact hg.kept
    · exact hg.published
    · exact hg.data
    · exact hg.creator
    · exact hg.next
    · exact hg.drawn
    · exact hg.temporaries
    · intro v hv
      rcases List.mem_cons.mp hv with rfl | hv
      · exact .inr ⟨id,ho,hid⟩
      · exact .inl hv

end Publishing

end Filesystem

end Objsds
