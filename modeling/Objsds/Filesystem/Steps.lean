import Objsds.Filesystem.Managed

namespace Objsds

open Foundation

namespace Filesystem

variable {K : Setting} {d d₁ : Disk} {s : Ideal.State} {i : ℕ} {p : Path} {n : Option Node}

section Nodes

theorem Disk.node_update {q : Path} (he : d₁.entries = Function.update d.entries p n) (hq : q ≠ p) :
    d₁.node q = d.node q := by
  simp [Disk.node,he,hq]

theorem Disk.entries_update {q : Path} (he : d₁.entries = Function.update d.entries p n)
    (hq : q ≠ p) : d₁.entries q = d.entries q := by
  simp [he,hq]

theorem Disk.kept_update {q : Path} (hk : d₁.kept = Function.update d.kept p (n :: d.kept p))
    {m : Option Node} (hm : m ∈ d₁.kept q) : (q = p ∧ m = n) ∨ m ∈ d.kept q := by
  by_cases hq : q = p
  · subst hq
    rw [hk,Function.update_self,List.mem_cons] at hm
    rcases hm with hm | hm
    · exact .inl ⟨rfl,hm⟩
    · exact .inr hm
  · rw [hk,Function.update_of_ne hq] at hm
    exact .inr hm

theorem Disk.visible_congr {t : Target}
    (h : ∀ ino, d₁.entries t.path = some (.file ino) ↔ d.entries t.path = some (.file ino)) :
    d₁.visible t = d.visible t := by
  unfold Disk.visible
  cases t.dirOnly with
  | true => rfl
  | false =>
      simp only [Bool.false_eq_true,if_false]
      cases hd : d.entries t.path with
      | some n =>
          cases n with
          | file ino => rw [(h ino).mpr hd]
          | dir | link =>
              cases hd₁ : d₁.entries t.path with
              | none => rfl
              | some n₁ =>
                  cases n₁ with
                  | file ino => exact absurd ((h ino).mp hd₁) (by simp [hd])
                  | dir | link => rfl
      | none =>
          cases hd₁ : d₁.entries t.path with
          | none => rfl
          | some n₁ =>
              cases n₁ with
              | file ino => exact absurd ((h ino).mp hd₁) (by simp [hd])
              | dir | link => rfl

theorem Disk.visible_entry {t : Target} {ino : ℕ} (h : d.visible t = some ino) :
    t.dirOnly = false ∧ d.entries t.path = some (.file ino) := by
  unfold Disk.visible at h
  split at h
  · simp at h
  · rename_i hd
    refine ⟨by simpa using hd,?_⟩
    split at h
    · rename_i k hk
      rw [hk]
      simpa using h
    · simp at h

theorem Disk.visible_of_entry {t : Target} {ino : ℕ} (hd : t.dirOnly = false)
    (h : d.entries t.path = some (.file ino)) : d.visible t = some ino := by
  simp [Disk.visible,hd,h]

end Nodes

section Trees

theorem Tree.set (h : Tree K d) (he : d₁.entries = Function.update d.entries p n)
    (hk : d₁.kept = Function.update d.kept p (n :: d.kept p)) (hnext : d.next ≤ d₁.next)
    (hdrawn : d₁.drawn = d.drawn) (hp : p ≠ []) (hdir : d.entries p ≠ some .dir)
    (habove : d.node p.dropLast = some .dir) (hlink : ∀ t, n ≠ some (.link t))
    (hino : ∀ ino, n = some (.file ino) → ino < d₁.next)
    (hlock : ∀ l ino, K.sites l → p = K.lock l → n = some (.file ino) → ∀ l', K.sites l' →
      d.entries (K.lock l') ≠ some (.file ino))
    (hlocks : K.LocksApart → ∀ l, K.sites l → p = K.lock l → n ≠ some .dir)
    (hfile : ¬ K.lax → ∀ l ino, K.sites l → p <+: K.dir l → n ≠ some (.file ino))
    (hdirs : ¬ K.lax → n = some .dir → ∀ l, K.sites l → p ≠ (K.object l).path ∧ p ≠ K.lock l)
    (htemp : ¬ K.lax → ∀ l id, K.sites l → d.drawn id = none → p = K.temporary l id → n = none) :
    Tree K d₁ := by
  have hstays : ∀ q, d.node q = some .dir → d₁.node q = some .dir := by
    intro q hq
    rw [Disk.node_update he ?_,hq]
    rintro rfl
    rw [Disk.node_of_ne hp] at hq
    exact hdir hq
  have hentry : ∀ q m, d₁.entries q = m → (q = p ∧ m = n) ∨ d.entries q = m := by
    intro q m hq
    by_cases hqp : q = p
    · subst hqp
      rw [he,Function.update_self] at hq
      exact .inl ⟨rfl,hq.symm⟩
    · rw [Disk.entries_update he hqp] at hq
      exact .inr hq
  have hclear : ∀ q, d.Clear q → d₁.Clear q := by
    intro q hq r hr t ht
    rcases hentry r _ ht with ⟨-,hn⟩ | ht
    · exact hlink t hn.symm
    · exact hq r hr t ht
  constructor
  · intro q c hq
    by_cases hqp : q ++ [c] = p
    · subst hqp
      refine hstays q ?_
      simpa using habove
    · rw [Disk.entries_update he hqp] at hq
      exact hstays q (h.wf q c hq)
  · exact hstays _ h.rootDir
  · exact hstays _ h.locksDir
  · exact fun l hl => hclear _ (h.clearObject l hl)
  · exact fun l hl => hclear _ (h.clearLock l hl)
  · intro q
    by_cases hqp : q = p
    · subst hqp
      simp [he,hk]
    · rw [Disk.entries_update he hqp,hk,Function.update_of_ne hqp]
      exact h.current q
  · intro q ino hq
    rcases Disk.kept_update hk hq with ⟨-,hn⟩ | hq
    · exact hino ino hn.symm
    · exact Nat.lt_of_lt_of_le (h.bounded q ino hq) hnext
  · intro l l' ino hl hl' hf hf'
    rcases hentry _ _ hf with ⟨hp₁,hn⟩ | hf <;> rcases hentry _ _ hf' with ⟨hp₂,hn'⟩ | hf'
    · exact Setting.lock_injective (hp₁.trans hp₂.symm)
    · exact absurd hf' (hlock l ino hl hp₁.symm hn.symm l' hl')
    · exact absurd hf (hlock l' ino hl' hp₂.symm hn'.symm l hl)
    · exact h.ownLock l l' ino hl hl' hf hf'
  · intro hk' l hl hq
    rcases Disk.kept_update hk hq with ⟨hp₁,hn⟩ | hq
    · exact hlocks hk' l hl hp₁.symm hn.symm
    · exact h.locksKept hk' l hl hq
  · intro hx l q ino hl hq hf
    rcases hentry _ _ hf with ⟨rfl,hn⟩ | hf
    · exact hfile hx l ino hl hq hn.symm
    · exact h.dirs hx l q ino hl hq hf
  · intro hx l hl
    constructor
    · intro hq
      rcases hentry _ _ hq with ⟨hp₁,hn⟩ | hq
      · exact (hdirs hx hn.symm l hl).1 hp₁.symm
      · exact (h.files hx l hl).1 hq
    · intro hq
      rcases hentry _ _ hq with ⟨hp₁,hn⟩ | hq
      · exact (hdirs hx hn.symm l hl).2 hp₁.symm
      · exact (h.files hx l hl).2 hq
  · intro hx l id hl hid
    rw [hdrawn] at hid
    by_cases hqp : K.temporary l id = p
    · rw [hqp,he,Function.update_self]
      exact htemp hx l id hl hid hqp.symm
    · rw [Disk.entries_update he hqp]
      exact h.temporaries hx l id hl hid

theorem Tree.keep (h : Tree K d) (he : d₁.entries = d.entries)
    (hk : ∀ q m, m ∈ d₁.kept q → m ∈ d.kept q) (hc : ∀ q, d.entries q ∈ d₁.kept q)
    (hnext : d₁.next = d.next) (hdrawn : ∀ id, d₁.drawn id = none → d.drawn id = none) :
    Tree K d₁ := by
  have hnode : ∀ q, d₁.node q = d.node q := by
    intro q
    simp [Disk.node,he]
  constructor
  · intro q c hq
    rw [he] at hq
    rw [hnode]
    exact h.wf q c hq
  · rw [hnode,h.rootDir]
  · rw [hnode,h.locksDir]
  · intro l hl q hq t
    rw [he]
    exact h.clearObject l hl q hq t
  · intro l hl q hq t
    rw [he]
    exact h.clearLock l hl q hq t
  · intro q
    rw [he]
    exact hc q
  · intro q ino hq
    rw [hnext]
    exact h.bounded q ino (hk q _ hq)
  · intro l l' ino hl hl' hf hf'
    rw [he] at hf hf'
    exact h.ownLock l l' ino hl hl' hf hf'
  · intro hk' l hl hq
    exact h.locksKept hk' l hl (hk _ _ hq)
  · intro hx l q ino hl hq
    rw [he]
    exact h.dirs hx l q ino hl hq
  · intro hx l hl
    rw [he]
    exact h.files hx l hl
  · intro hx l id hl hid
    rw [he]
    exact h.temporaries hx l id hl (hdrawn id hid)

end Trees

section Shown

theorem Setting.Shows.congr {l : Location} {o : Option Object} (h : K.Shows d l o)
    (hv : d₁.visible (K.object l) = d.visible (K.object l))
    (hd : ∀ ino, d.visible (K.object l) = some ino → d₁.data ino = d.data ino) :
    K.Shows d₁ l o := by
  cases o with
  | none => exact hv.trans h
  | some o =>
      obtain ⟨ino,hino,hdec⟩ := h
      exact ⟨ino,hv.trans hino,by rw [hd ino hino,hdec]⟩

theorem Setting.Possible.congr {l : Location} (h : K.Possible d l n)
    (hd : ∀ ino, n = some (.file ino) → d₁.data ino = d.data ino ∧ d₁.synced ino = d.synced ino) :
    K.Possible d₁ l n := by
  match n,h,hd with
  | some (.file ino),h,hd =>
      obtain ⟨h₁,h₂⟩ := hd ino rfl
      simpa only [Setting.Possible,h₁,h₂] using h
  | some .dir,h,_ => exact h
  | some (.link _),h,_ => exact h
  | none,h,_ => exact h

theorem Inv.visible_kept (h : Inv K d s) {l : Location} {ino : ℕ}
    (hv : d.visible (K.object l) = some ino) : some (.file ino) ∈ d.kept (K.object l).path := by
  rw [← (Disk.visible_entry hv).2]
  exact h.tree.current _

theorem Inv.visible_lt (h : Inv K d s) {l : Location} {ino : ℕ}
    (hv : d.visible (K.object l) = some ino) : ino < d.next :=
  h.tree.bounded _ ino (h.visible_kept hv)

end Shown

section Touch

theorem Inv.touch (h : Inv K d s) (htree : Tree K d₁)
    (he : d₁.entries = Function.update d.entries p n)
    (hk : d₁.kept = Function.update d.kept p (n :: d.kept p)) (hl : d₁.locks = d.locks)
    (hdrawn : d₁.drawn = d.drawn) (hnext : d.next ≤ d₁.next)
    (hdata : ∀ ino, ino < d.next → d₁.data ino = d.data ino ∧ d₁.synced ino = d.synced ino)
    (hobj : ∀ l, K.sites l → (K.object l).path = p →
      d.entries p = none ∧ n = some .dir ∧ K.blank l (some .dir))
    (hlock : ∀ l, K.sites l → K.lock l = p → d.entries p = none) : Inv K d₁ s := by
  constructor
  · exact htree
  · intro ino hino
    rw [hl]
    exact h.idle ino (Nat.le_trans hnext hino)
  · rw [hl]
    exact h.exclusive
  · rw [hdrawn]
    exact h.old
  · rw [hdrawn]
    exact h.used
  · exact h.issued
  · intro l hs m hm
    rcases Disk.kept_update hk hm with ⟨hp,rfl⟩ | hm
    · obtain ⟨-,rfl,hb⟩ := hobj l hs hp
      exact hb
    · refine (h.possible l hs m hm).congr ?_
      rintro ino rfl
      exact hdata ino (h.tree.bounded _ ino hm)
  · intro l hs hfree
    have hshow : K.Shows d l (s.objects l) := by
      refine h.settled l hs ?_
      rintro j ⟨ino,hino,hj⟩
      refine hfree j ⟨ino,?_,by rw [hl]; exact hj⟩
      rw [Disk.entries_update he,hino]
      intro hp
      rw [hp,hlock l hs hp] at hino
      simp at hino
    refine hshow.congr (Disk.visible_congr ?_) ?_
    · intro ino
      by_cases hp : (K.object l).path = p
      · obtain ⟨hnone,hn,-⟩ := hobj l hs hp
        rw [hp,he,Function.update_self,hn,hnone]
        simp
      · rw [Disk.entries_update he hp]
    · exact fun ino hino => (hdata ino (h.visible_lt hino)).1

theorem Guar.touch (hdir : d.entries p ≠ some .dir) (hp₀ : p ≠ [])
    (he : d₁.entries = Function.update d.entries p n)
    (hk : d₁.kept = Function.update d.kept p (n :: d.kept p)) (hl : d₁.locks = d.locks)
    (hdrawn : d₁.drawn = d.drawn) (hnext : d.next ≤ d₁.next)
    (hdata : ∀ ino, ino < d.next → d₁.data ino = d.data ino ∧ d₁.synced ino = d.synced ino)
    (hcreator : ∀ ino, ino < d.next → d₁.creator ino = d.creator ino)
    (hobj : ∀ l, K.sites l → (K.object l).path = p → d.entries p = none ∧ n = some .dir)
    (hlock : ∀ l, K.sites l → K.lock l = p → d.entries p = none)
    (htemp : ∀ l id j, K.sites l → ¬ K.old id → d.drawn id = some j → j ≠ i →
      K.temporary l id = p → d.entries p = none ∧ K.lax) : Guar K i d s d₁ s := by
  constructor
  · intro q hq
    rw [Disk.node_update he,hq]
    rintro rfl
    rw [Disk.node_of_ne hp₀] at hq
    exact hdir hq
  · intro l ino hs hf
    rw [Disk.entries_update he,hf]
    intro hp
    rw [hp,hlock l hs hp] at hf
    simp at hf
  · intro j mode ino _
    rw [hl]
  · intro l hs _
    refine ⟨rfl,fun ino => ?_⟩
    by_cases hp : (K.object l).path = p
    · obtain ⟨hnone,hn⟩ := hobj l hs hp
      rw [hp,he,Function.update_self,hn,hnone]
      simp
    · rw [Disk.entries_update he hp]
  · intro l hs _ m hm
    rcases Disk.kept_update hk hm with ⟨hp,rfl⟩ | hm
    · obtain ⟨hnone,hn⟩ := hobj l hs hp
      exact .inr ⟨hn,by rw [hp,hnone]⟩
    · exact .inl hm
  · intro l ino hs hm
    rcases Disk.kept_update hk hm with ⟨hp,hn⟩ | hm
    · have := (hobj l hs hp).2
      rw [← hn] at this
      simp at this
    · exact .inl hm
  · exact fun ino hino _ => hdata ino hino
  · exact hcreator
  · exact hnext
  · intro id j hid
    rw [hdrawn]
    exact hid
  · intro l id j hs hold hid hj
    by_cases hp : K.temporary l id = p
    · obtain ⟨hnone,hlax⟩ := htemp l id j hs hold hid hj hp
      refine ⟨?_,fun hx => absurd hlax hx⟩
      intro ino hf
      rw [hp,hnone] at hf
      simp at hf
    · rw [Disk.entries_update he hp]
      exact ⟨fun _ hf => hf,fun _ hf => hf⟩
  · exact fun v hv => .inl hv

end Touch

section Keep

theorem Inv.keep (h : Inv K d s) (he : d₁.entries = d.entries)
    (hk : ∀ q m, m ∈ d₁.kept q → m ∈ d.kept q) (hc : ∀ q, d.entries q ∈ d₁.kept q)
    (hnext : d₁.next = d.next) (hdrawn : ∀ id, d.drawn id ≠ none → d₁.drawn id ≠ none)
    (hidle : ∀ ino, d.next ≤ ino → d₁.locks ino = [])
    (hexcl : ∀ ino j, (j,.exclusive) ∈ d₁.locks ino → d₁.locks ino = [(j,.exclusive)])
    (hdata : ∀ l ino, K.sites l → some (.file ino) ∈ d.kept (K.object l).path →
      d₁.data ino = d.data ino ∧ d₁.synced ino = d.synced ino)
    (hshow : ∀ l, K.sites l → (∀ j, ¬ d₁.Holds (K.lock l) j .exclusive) →
      K.Shows d l (s.objects l)) : Inv K d₁ s := by
  constructor
  · refine h.tree.keep he hk hc hnext ?_
    intro id hid
    by_contra hne
    exact hdrawn id hne hid
  · rw [hnext]
    exact hidle
  · exact hexcl
  · exact fun id hid => hdrawn id (h.old id hid)
  · intro v hv
    obtain ⟨id,hid,hd⟩ := h.used v hv
    exact ⟨id,hid,hdrawn id hd⟩
  · exact h.issued
  · intro l hl m hm
    refine (h.possible l hl m (hk _ m hm)).congr ?_
    rintro ino rfl
    exact hdata l ino hl (hk _ _ hm)
  · intro l hl hfree
    refine (hshow l hl hfree).congr (Disk.visible_congr (fun _ => by rw [he])) ?_
    intro ino hino
    exact (hdata l ino hl (h.visible_kept hino)).1

theorem Guar.keep (he : d₁.entries = d.entries) (hk : ∀ q m, m ∈ d₁.kept q → m ∈ d.kept q)
    (hlocks : ∀ j mode ino, j ≠ i → ((j,mode) ∈ d₁.locks ino ↔ (j,mode) ∈ d.locks ino))
    (hdata : ∀ ino, ino < d.next →
      (d.creator ino ≠ i ∨ ∃ l, K.sites l ∧ some (.file ino) ∈ d.kept (K.object l).path) →
      d₁.data ino = d.data ino ∧ d₁.synced ino = d.synced ino)
    (hcreator : d₁.creator = d.creator) (hnext : d₁.next = d.next)
    (hdrawn : ∀ id j, d.drawn id = some j → d₁.drawn id = some j) : Guar K i d s d₁ s := by
  constructor
  · intro q hq
    simpa [Disk.node,he] using hq
  · intro l ino _ hf
    rw [he,hf]
  · exact hlocks
  · intro l _ _
    exact ⟨rfl,fun ino => by rw [he]⟩
  · exact fun l _ _ m hm => .inl (hk _ m hm)
  · exact fun l ino _ hm => .inl (hk _ _ hm)
  · exact hdata
  · intro ino _
    rw [hcreator]
  · exact Nat.le_of_eq hnext.symm
  · exact hdrawn
  · intro l id j _ _ _ _
    rw [he]
    exact ⟨fun _ hf => hf,fun _ hf => hf⟩
  · exact fun v hv => .inl hv

theorem Guar.refl (i : ℕ) (d : Disk) (s : Ideal.State) : Guar K i d s d s :=
  Guar.keep rfl (fun _ _ hm => hm) (fun _ _ _ _ => .rfl) (fun _ _ _ => ⟨rfl,rfl⟩) rfl rfl
    (fun _ _ hid => hid)

end Keep

section Entries

variable {l : Location} {id : Uuid} {ino : ℕ}

theorem Disk.newFile_data (d : Disk) (i : ℕ) (p : Path) {ino : ℕ} (h : ino < d.next) :
    (d.newFile i p).data ino = d.data ino ∧ (d.newFile i p).synced ino = d.synced ino := by
  have hne : ino ≠ d.next := Nat.ne_of_lt h
  simp [Disk.newFile,hne]

theorem Disk.newFile_creator (d : Disk) (i : ℕ) (p : Path) {ino : ℕ} (h : ino < d.next) :
    (d.newFile i p).creator ino = d.creator ino := by
  have hne : ino ≠ d.next := Nat.ne_of_lt h
  simp [Disk.newFile,hne]

theorem Tree.entries_lt (h : Tree K d) (hf : d.entries p = some (.file ino)) : ino < d.next := by
  refine h.bounded p ino ?_
  rw [← hf]
  exact h.current p

theorem mkdir_step (hK : K.Sound) (h : Inv K d s) (hl : K.sites l) {q : Path} {c : String}
    (hq : q ++ [c] <+: K.dir l) (hnone : d.entries (q ++ [c]) = none)
    (habove : d.node q = some .dir) (i : ℕ) :
    Inv K (d.set (q ++ [c]) (some .dir)) s ∧ Guar K i d s (d.set (q ++ [c]) (some .dir)) s := by
  have htree : Tree K (d.set (q ++ [c]) (some .dir)) := by
    refine h.tree.set rfl rfl (Nat.le_refl _) rfl (by simp) (by simp [hnone]) (by simpa using habove)
      (by simp) (by simp) (by simp) ?_ (by simp) ?_ ?_
    · rintro hx l' hl' hp -
      exact hx l' l hl' hl (hp ▸ hq)
    · rintro hx - l' hl'
      refine ⟨fun hp => ?_,fun hp => ?_⟩
      · exact (hK.strict hx).apart l' l hl' hl (hp ▸ hq)
      · exact (hK.strict hx).lockApart l' l hl' hl (hp ▸ hq)
    · intro hx l' id hl' _ hp
      exact absurd (hp ▸ hq) ((hK.strict hx).temporaryApart l' l id hl' hl)
  constructor
  · refine h.touch htree rfl rfl rfl rfl (Nat.le_refl _) (fun _ _ => ⟨rfl,rfl⟩) ?_ ?_
    · intro l' hl' hp
      exact ⟨hnone,rfl,hK.blankDir l' l hl' hl (hp ▸ hq)⟩
    · exact fun _ _ _ => hnone
  · refine Guar.touch (by simp [hnone]) (by simp) rfl rfl rfl rfl (Nat.le_refl _)
      (fun _ _ => ⟨rfl,rfl⟩) (fun _ _ => rfl) (fun _ _ _ => ⟨hnone,rfl⟩) (fun _ _ _ => hnone) ?_
    intro l' id j hl' _ _ _ hp
    refine ⟨hnone,?_⟩
    by_contra hx
    exact (hK.strict hx).temporaryApart l' l id hl' hl (hp ▸ hq)

theorem Setting.lock_split (K : Setting) (l : Location) :
    K.lock l = (K.root ++ [lockDir]) ++ [lockName l] := by
  simp [Setting.lock,lockPath]

theorem newLock_step (hK : K.Sound) (h : Inv K d s) (hl : K.sites l)
    (hnone : d.entries (K.lock l) = none) (i : ℕ) :
    Inv K (d.newFile i (K.lock l)) s ∧ Guar K i d s (d.newFile i (K.lock l)) s := by
  have hp : K.lock l ≠ [] := by simp [Setting.lock_split]
  have htree : Tree K (d.newFile i (K.lock l)) := by
    refine h.tree.set rfl rfl (Nat.le_succ _) rfl hp (by simp [hnone]) ?_ (by simp) ?_ ?_ (by simp)
      ?_ (by simp) ?_
    · rw [Setting.lock_split,List.dropLast_concat]
      exact h.tree.locksDir
    · rintro k hk
      obtain rfl := Node.file.inj (Option.some.inj hk)
      exact Nat.lt_succ_self _
    · rintro l' k - - hk l'' hl'' hf
      obtain rfl := Node.file.inj (Option.some.inj hk)
      exact Nat.lt_irrefl _ (h.tree.entries_lt hf)
    · intro hx l' k hl' hpre
      exact absurd hpre ((hK.strict hx).lockApart l l' hl hl')
    · intro _ l' id _ _ he
      exact absurd he (Setting.lock_ne_temporary l l' id)
  constructor
  · refine h.touch htree rfl rfl rfl rfl (Nat.le_succ _) (fun _ hk => d.newFile_data i _ hk) ?_ ?_
    · intro l' hl' he
      exact absurd he (hK.notLock l' l hl' hl)
    · exact fun _ _ _ => hnone
  · refine Guar.touch (by simp [hnone]) hp rfl rfl rfl rfl (Nat.le_succ _)
      (fun _ hk => d.newFile_data i _ hk) (fun _ hk => d.newFile_creator i _ hk) ?_
      (fun _ _ _ => hnone) ?_
    · intro l' hl' he
      exact absurd he (hK.notLock l' l hl' hl)
    · intro l' id j _ _ _ _ he
      exact absurd he.symm (Setting.lock_ne_temporary l l' id)

theorem temporary_step (hK : K.Sound) (h : Inv K d s) (hl : K.sites l) (hold : ¬ K.old id)
    (hid : d.drawn id = some i) (habove : d.node (K.dir l) = some .dir)
    (he : d₁.entries = Function.update d.entries (K.temporary l id) n)
    (hk : d₁.kept = Function.update d.kept (K.temporary l id) (n :: d.kept (K.temporary l id)))
    (hlocks : d₁.locks = d.locks) (hdrawn : d₁.drawn = d.drawn) (hnext : d.next ≤ d₁.next)
    (hdata : ∀ ino, ino < d.next → d₁.data ino = d.data ino ∧ d₁.synced ino = d.synced ino)
    (hcreator : ∀ ino, ino < d.next → d₁.creator ino = d.creator ino)
    (hdir : d.entries (K.temporary l id) ≠ some .dir)
    (hn : n = none ∨ ∃ ino, n = some (.file ino) ∧ ino < d₁.next) :
    Inv K d₁ s ∧ Guar K i d s d₁ s := by
  have hp : K.temporary l id ≠ [] := by simp [Setting.temporary]
  have htree : Tree K d₁ := by
    refine h.tree.set he hk hnext hdrawn hp hdir ?_ ?_ ?_ ?_ ?_ ?_ ?_ ?_
    · simpa [Setting.temporary] using habove
    · rintro t rfl
      rcases hn with hn | ⟨_,hn,-⟩ <;> simp at hn
    · rintro k rfl
      rcases hn with hn | ⟨k',hn,hlt⟩
      · simp at hn
      · obtain rfl := Node.file.inj (Option.some.inj hn)
        exact hlt
    · intro l' _ _ he' _
      exact absurd he'.symm (Setting.lock_ne_temporary l' l id)
    · intro _ l' _ he' _
      exact absurd he'.symm (Setting.lock_ne_temporary l' l id)
    · intro hx l' k hl' hpre
      exact absurd hpre ((hK.strict hx).temporaryApart l l' id hl hl')
    · rintro - rfl
      rcases hn with hn | ⟨_,hn,-⟩ <;> simp at hn
    · intro _ l' id' _ hid' he'
      rw [← Setting.temporary_inj he',hid] at hid'
      simp at hid'
  constructor
  · refine h.touch htree he hk hlocks hdrawn hnext hdata ?_ ?_
    · intro l' hl' he'
      exact absurd he' (hK.notTemporary l' l id hl' hl hold)
    · intro l' _ he'
      exact absurd he' (Setting.lock_ne_temporary l' l id)
  · refine Guar.touch hdir hp he hk hlocks hdrawn hnext hdata hcreator ?_ ?_ ?_
    · intro l' hl' he'
      exact absurd he' (hK.notTemporary l' l id hl' hl hold)
    · intro l' _ he'
      exact absurd he' (Setting.lock_ne_temporary l' l id)
    · intro l' id' j _ _ hid' hj he'
      rw [Setting.temporary_inj he',hid] at hid'
      exact absurd (Option.some.inj hid').symm hj

theorem newTemporary_step (hK : K.Sound) (h : Inv K d s) (hl : K.sites l) (hold : ¬ K.old id)
    (hid : d.drawn id = some i) (habove : d.node (K.dir l) = some .dir)
    (hnone : d.entries (K.temporary l id) = none) :
    Inv K (d.newFile i (K.temporary l id)) s ∧
      Guar K i d s (d.newFile i (K.temporary l id)) s :=
  temporary_step hK h hl hold hid habove rfl rfl rfl rfl (Nat.le_succ _)
    (fun _ hk => d.newFile_data i _ hk) (fun _ hk => d.newFile_creator i _ hk) (by simp [hnone])
    (.inr ⟨d.next,rfl,Nat.lt_succ_self _⟩)

theorem removed_step (hK : K.Sound) (h : Inv K d s) (hl : K.sites l) (hold : ¬ K.old id)
    (hid : d.drawn id = some i) (habove : d.node (K.dir l) = some .dir)
    (hdir : d.entries (K.temporary l id) ≠ some .dir) :
    Inv K (d.set (K.temporary l id) none) s ∧ Guar K i d s (d.set (K.temporary l id) none) s :=
  temporary_step hK h hl hold hid habove rfl rfl rfl rfl (Nat.le_refl _)
    (fun _ _ => ⟨rfl,rfl⟩) (fun _ _ => rfl) hdir (.inl rfl)

end Entries

end Filesystem

end Objsds
