import Objsds.Filesystem.Atomicity

namespace Objsds

open Foundation FilesystemStore

namespace Filesystem

section Layouts

variable {root : Path} {l : Location} {d : Disk}

theorem layout_spaced (root : Path) : (layout root).Spaced where
  accepted := (layout_sound root).accepted
  notLock := (layout_sound root).notLock
  apart := (layout_strict root).apart
  lockApart := (layout_strict root).lockApart
  temporaryApart := (layout_strict root).temporaryApart

theorem layout_regular (hl : Structural l) : (layout root).Regular l where
  accepted := (layout_sound root).accepted l hl
  notLocks := by
    intro he
    have := congrArg List.length he
    rw [length_object hl] at this
    simp [layout] at this
  notLock := (layout_sound root).notLock l l hl hl
  lockApart := (layout_strict root).lockApart l l hl hl

end Layouts

section Losses

variable {K : Setting} {l : Location} {d d₂ : Disk} {p : Path}

theorem Sane.crash_losing (hs : Sane K d) (hp : none ∈ d.kept p) :
    Crash d (d.crash (Function.update d.entries p none) d.data) := by
  refine .crash _ _ (fun q => ?_)
  by_cases hq : q = p
  · subst hq
    rwa [Function.update_self]
  · rw [Function.update_of_ne hq]
    exact hs.current q

theorem Sane.lost (hs : Sane K d) (hr : K.Regular l) (hl : K.sites l) (hp : p ≠ [])
    (hdir : p <+: K.dir l) (hnone : none ∈ d.kept p) (j : ℕ) :
    ∃ d₂, Crash d d₂ ∧ ∃ d₃, runAlone j (reopen K.root l).run d₂ = some (.ok (.ok none),d₃) := by
  have hcrash := hs.crash_losing hnone
  refine ⟨_,hcrash,?_⟩
  refine (hs.legible_crash hl hcrash ?_).reopen hr
  obtain ⟨name,hname,-⟩ := Setting.object_split (K := K) hr.accepted
  have hmem : p ∈ Filesystem.ancestors (K.object l).path := by
    obtain ⟨s,hsplit⟩ := hdir
    exact mem_ancestors.mpr ⟨hp,s ++ [name],by simp,by rw [hname,← hsplit,List.append_assoc]⟩
  have hgone : ¬ ∀ q ∈ Filesystem.ancestors (K.object l).path,
      Function.update d.entries p none q = some .dir := by
    intro hall
    simpa using hall p hmem
  simp only [Stands,Disk.crash,if_neg hgone]

theorem Sane.above_cases (hs : Sane K d) (hl : K.sites l) (hp : p ≠ []) (hdir : p <+: K.dir l)
    {n : Option Node} (hn : n ∈ d.kept p) : n = none ∨ n = some .dir := by
  rcases n with _ | _ | ino | t
  · exact .inl rfl
  · exact .inr rfl
  · exact absurd hn (hs.ancestors l hl p hp hdir ino)
  · exact absurd hn (hs.unlinked l hl p (.inl (hdir.trans (Setting.dir_prefix l))) t)

end Losses

section Writes

variable {root : Path} {l : Location} {b : Bytes} {i : ℕ} {q : Request}
  {c c₁ c₂ : Config Disk SysReply Outcome} {tr tr' : Trace SysReply} {out : Outcome} {v : Version}

def Survives (root : Path) (l : Location) (b : Bytes) (v : Version) (d : Disk) : Prop :=
  ∀ d₂, Crash d d₂ → ∀ j, ∃ d₃,
    runAlone j (reopen root l).run d₂ = some (.ok (.ok (some ⟨b,v⟩)),d₃)

theorem landed_of_run {K : Setting} (hK : K.Spaced) (hr : K.Regular l) (hl : K.sites l)
    (hs : Sane K c₁.world) (hrec : Recorded l c₁.world) (hq : Writes l b q)
    (hcall : c₁.calls i = q.outcome <$> serve ⟨K.root⟩ q) (h : Run (Env True) c₁ tr c₂)
    (hown : ∀ ev ∈ tr, ev.call = i) (hdone : c₂.calls i = .done out) (hv : out.written = some v) :
    ∃ rev h, v = revisionVersion rev ∧ Landed K l b i c₁.world none rev h c₂.world := by
  have hend := (Throughout.run h hown hcall (serve_settled hK hr hl hrec hq (.start hs))).2 out hdone
  rw [hv] at hend
  obtain ⟨rev,hrev,hland⟩ := hend
  exact ⟨rev,_,hrev,hland⟩

theorem survives_iff (hs : Sane (layout root) c.world)
    (hcalls : ∀ j, ∃ rq : Request, Structural rq.location ∧
      c.calls j = rq.outcome <$> serve ⟨root⟩ rq)
    (hpast : Run (Env True) c tr c₁) (hfirst : ∀ ev ∈ tr, ev.call ≠ i) (hl : Structural l)
    (hq : Writes l b q) (hcall : c.calls i = q.outcome <$> serve ⟨root⟩ q)
    (h : Run (Env True) c₁ tr' c₂) (hown : ∀ ev ∈ tr', ev.call = i)
    (hdone : c₂.calls i = .done out) (hv : out.written = some v) :
    Survives root l b v c₂.world ↔ Founded root l c₁.world := by
  have hs₁ : Sane (layout root) c₁.world := by
    refine sane_run (layout_spaced root) hpast hs (fun j => ?_)
    obtain ⟨rq,hst,hc⟩ := hcalls j
    rw [hc]
    exact Program.Only.map (serve_tidy ((layout_sound root).accepted _ hst) hst)
  have hcall₁ : c₁.calls i = q.outcome <$> serve ⟨root⟩ q := by
    rw [← hcall]
    exact hpast.untouched hfirst
  obtain ⟨rev,answers,rfl,hland⟩ := landed_of_run (layout_spaced root) (layout_regular hl) hl hs₁
    (structural_recorded hl _) hq hcall₁ h hown hdone hv
  have hprog := hland.going.progress
  constructor
  · intro hsurv p hp hdir n hn
    rcases hs₁.above_cases hl hp hdir hn with rfl | hn'
    · obtain ⟨d₂,hcrash,d₃,hrun⟩ := hprog.sane.lost (layout_regular hl) hl hp hdir
        ((hprog.above p hp hdir).1 none hn) 0
      obtain ⟨d₃',hrun'⟩ := hsurv d₂ hcrash 0
      have hsame := hrun.symm.trans hrun'
      simp at hsame
    · exact hn'
  · intro hfound d₂ hcrash j
    obtain ⟨name,hname,-⟩ := Setting.object_split (K := layout root)
      ((layout_sound root).accepted l hl)
    have hn : d₂.entries ((layout root).object l).path ∈
        c₂.world.kept ((layout root).object l).path := by
      refine hcrash.entry_firm (fun p hp => ?_)
      obtain ⟨hne,s,hs,he⟩ := mem_ancestors.mp hp
      have hpre : p <+: (layout root).dir l := prefix_of_split (hname.symm.trans he) hs
      exact (hprog.above p hne hpre).2 (hfound p hne hpre)
    have ho := hland.stands hn (fun ino hs => hcrash.data hs)
    exact (hprog.sane.legible_crash hl hcrash ho).reopen (layout_regular hl)

end Writes

section Shop

theorem emptyRoot_sane : Sane (layout []) emptyRoot := by
  have hkept : ∀ p n, n ∈ emptyRoot.kept p → n = none ∨ (p = [lockDir] ∧ n = some .dir) := by
    intro p n hn
    simp only [emptyRoot,Disk.untouched,List.mem_singleton] at hn
    split at hn
    · exact .inr ⟨‹_›,hn⟩
    · exact .inl hn
  refine ⟨emptyRoot_pristine.wf,emptyRoot_pristine.current,emptyRoot_pristine.bounded,rfl,rfl,?_,?_,
    ?_,?_⟩
  · intro l _ q _ t hm
    rcases hkept _ _ hm with hn | ⟨-,hn⟩ <;> simp at hn
  · intro l _ q _ _ ino hm
    rcases hkept _ _ hm with hn | ⟨-,hn⟩ <;> simp at hn
  · intro ino hm
    rcases hkept _ _ hm with hn | ⟨-,hn⟩ <;> simp at hn
  · intro l _ hm
    rcases hkept _ _ hm with hn | ⟨hp,-⟩
    · simp at hn
    · simp [Setting.lock,lockPath,layout] at hp

theorem create_absent {s s' : Ideal.State} {l : Location} {b : Bytes}
    {r : (Request.create l b).Response StoreError} (h : Ideal.Step False s (.create l b) r s')
    (ha : s.objects l = none) : ∃ v, r = .created v ∧ s' = s.put l ⟨b,v⟩ := by
  cases h with
  | created _ _ v => exact ⟨v,rfl,rfl⟩
  | alreadyExists _ _ o hp => simp [ha] at hp
  | createFailed _ _ _ hx => exact hx.elim
  | createUncertain _ _ _ _ _ _ hx => exact hx.elim

theorem packing_asked {T : Trace (Reply StoreError)}
    {m' : Config (Ideal.store StoreError False).State (Reply StoreError) Outcome}
    (hr : Run (Ideal.store StoreError False).Env ⟨vacant,fun i => ask (packing i)⟩ T m') (i : ℕ) :
    (m'.calls i = ask (packing i) ∧ m'.world.objects (box i) = none) ∨
      ∃ v, m'.calls i = .done (.created v) := by
  induction hr generalizing i with
  | nil => exact .inl ⟨rfl,rfl⟩
  | @snoc T a n m' hr hs ih =>
      obtain ⟨j,r,rfl,hstep,hask,hdone⟩ := asked_step hr hs
      have habsent : n.world.objects (box j) = none := by
        rcases ih j with ⟨-,ha⟩ | ⟨v,hd⟩
        · exact ha
        · rw [hask] at hd
          simp [ask] at hd
      obtain ⟨v,rfl,hput⟩ := create_absent hstep habsent
      by_cases hi : i = j
      · subst hi
        exact .inr ⟨v,hdone⟩
      · rw [hs.others (Ne.symm hi),hput]
        rcases ih i with ⟨hc,ha⟩ | hd
        · refine .inl ⟨hc,?_⟩
          rw [← ha]
          exact Objects.put_other _ (fun he => hi (box_injective he))
        · exact .inr hd

theorem packing_created {root : Path} {d : Disk} (hd : Pristine root d) {tr : Trace SysReply}
    {c' : Config Disk SysReply Outcome} {i : ℕ} {o : Outcome}
    (h : Run (Env False) ⟨d,fun i => (packing i).outcome <$> serve ⟨root⟩ (packing i)⟩ tr c')
    (ho : c'.calls i = .done o) : ∃ v, o = .created v := by
  simp only [← perform_ask] at h
  obtain ⟨marks,m',-,hrun,-,hdone⟩ := pool_refines (K := layout root) (layout_sound root) hd.inv
    hd.locks (fun i => ask_serves (q := packing i) (box_structural i)) (fun hf => hf.elim) h
  rcases packing_asked hrun i with ⟨hask,-⟩ | ⟨v,hv⟩
  · rw [hdone i o ho] at hask
    simp [ask] at hask
  · rw [hdone i o ho] at hv
    exact ⟨v,Program.done.inj hv⟩

-- The first object below a new root, created by a call that runs alone.
theorem first_created :
    ∃ (tr : Trace SysReply) (c' : Config Disk SysReply Outcome) (v : Version),
      Run (Env True) ⟨emptyRoot,fun i => (packing i).outcome <$> serve ⟨[]⟩ (packing i)⟩ tr c' ∧
      (∀ ev ∈ tr, ev.call = 0) ∧ c'.calls 0 = .done (.created v) := by
  obtain ⟨tr,c',hrun,hdone,-,hcall,-,-⟩ := packing_run emptyRoot_pristine (n := 1) (by omega)
  obtain ⟨o,ho⟩ := hdone 0 (by omega)
  obtain ⟨v,rfl⟩ := packing_created emptyRoot_pristine hrun ho
  refine ⟨tr,c',v,hrun.mono Env.faulty,fun ev hev => ?_,ho⟩
  have := hcall ev hev
  omega

theorem emptyRoot_survives_iff :
    ∃ (tr : Trace SysReply) (c' : Config Disk SysReply Outcome) (v : Version),
      Run (Env True) ⟨emptyRoot,fun i => (packing i).outcome <$> serve ⟨[]⟩ (packing i)⟩ tr c' ∧
      c'.calls 0 = .done (.created v) ∧
      (Survives [] (box 0) [] v c'.world ↔ Founded [] (box 0) emptyRoot) := by
  obtain ⟨tr,c',v,hrun,hown,hdone⟩ := first_created
  let start : Config Disk SysReply Outcome :=
    ⟨emptyRoot,fun i => (packing i).outcome <$> serve ⟨[]⟩ (packing i)⟩
  have hsane : Sane (layout []) start.world := emptyRoot_sane
  have hcalls : ∀ j, ∃ rq : Request, Structural rq.location ∧
      start.calls j = rq.outcome <$> serve ⟨[]⟩ rq := fun j => ⟨packing j,box_structural j,rfl⟩
  have hcall : start.calls 0 = (packing 0).outcome <$> serve ⟨[]⟩ (packing 0) := rfl
  have hpast : Run (Env True) start [] start := .nil
  have hwrites : Writes (box 0) [] (packing 0) := .inl rfl
  have hiff := survives_iff hsane hcalls hpast (by simp) (box_structural 0) hwrites hcall hrun hown
    hdone rfl
  exact ⟨tr,c',v,hrun,hdone,hiff⟩

-- The directory of the namespace is new, and nothing syncs the directory that contains it.
theorem new_namespace_lost :
    ∃ (tr : Trace SysReply) (c' : Config Disk SysReply Outcome) (v : Version) (d₂ d₃ : Disk),
      Run (Env True) ⟨emptyRoot,fun i => (packing i).outcome <$> serve ⟨[]⟩ (packing i)⟩ tr c' ∧
      (∀ ev ∈ tr, ev.call = 0) ∧ c'.calls 0 = .done (.created v) ∧ Crash c'.world d₂ ∧
      runAlone 0 (reopen [] (box 0)).run d₂ = some (.ok (.ok none),d₃) := by
  obtain ⟨tr,c',v,hrun,hown,hdone⟩ := first_created
  have hl := box_structural 0
  obtain ⟨rev,answers,-,hland⟩ := landed_of_run (layout_spaced []) (layout_regular hl) hl
    emptyRoot_sane (structural_recorded hl _) (q := packing 0) (.inl rfl) rfl hrun hown hdone rfl
  have hprog := hland.going.progress
  have hdir : ["shop"] <+: (layout []).dir (box 0) := by
    simp [Setting.dir,layout,(names_structure (box_structure 0)).2.1]
  have hnone : none ∈ emptyRoot.kept ["shop"] := by
    simp [emptyRoot,Disk.untouched,lockDir]
  obtain ⟨d₂,hcrash,d₃,hget⟩ := hprog.sane.lost (layout_regular hl) hl (by simp) hdir
    ((hprog.above _ (by simp) hdir).1 none hnone) 0
  exact ⟨tr,c',v,d₂,d₃,hrun,hown,hdone,hcrash,hget⟩

end Shop

end Filesystem

end Objsds
