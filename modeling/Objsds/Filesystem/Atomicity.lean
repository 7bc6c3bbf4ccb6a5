import Objsds.Filesystem.Durability
import Objsds.Filesystem.Wraparound

namespace Objsds

open Foundation FilesystemStore

namespace Filesystem

section Lengths

variable {text name : String} {l : Location}

theorem segments_length {cs s : List Char} (h : s ∈ segments cs) : s.length ≤ cs.length := by
  induction cs generalizing s with
  | nil =>
      obtain rfl := List.mem_singleton.mp h
      exact Nat.le_refl _
  | cons c cs ih =>
      rw [segments] at h
      split at h
      · rcases List.mem_cons.mp h with rfl | h
        · exact Nat.zero_le _
        · exact Nat.le_succ_of_le (ih h)
      · split at h
        · obtain rfl := List.mem_singleton.mp h
          simp
        · rename_i x rest hx
          rcases List.mem_cons.mp h with rfl | h
          · exact Nat.succ_le_succ (ih (by simp [hx]))
          · exact Nat.le_succ_of_le (ih (by simp [hx,h]))

theorem laterComponent_name {s : List Char} {c : Component} (h : laterComponent s = some c)
    (hc : c.name = some name) : name.toList = s := by
  unfold laterComponent at h
  split at h
  · simp at h
  · split at h
    · obtain rfl := Option.some.inj h
      simp [Component.name] at hc
    · obtain rfl := Option.some.inj h
      simp only [Component.name,Option.some.injEq] at hc
      simp [← hc]

theorem firstComponent_name {s : List Char} {rest : List (List Char)} {c : Component}
    (h : firstComponent s rest = some c) (hc : c.name = some name) : name.toList = s := by
  unfold firstComponent at h
  split at h
  · split at h
    · simp at h
    · obtain rfl := Option.some.inj h
      simp [Component.name] at hc
  · split at h
    · obtain rfl := Option.some.inj h
      simp [Component.name] at hc
    · exact laterComponent_name h hc

theorem names_length (h : name ∈ names text) : name.toList.length ≤ text.toList.length := by
  obtain ⟨c,hc,hn⟩ := List.mem_filterMap.mp h
  have hseg : name.toList ∈ segments text.toList := by
    unfold components at hc
    split at hc
    · simp at hc
    · rename_i s rest hs
      rw [hs]
      rcases List.mem_append.mp hc with hc | hc
      · rw [firstComponent_name (by simpa using hc) hn]
        exact List.mem_cons_self
      · obtain ⟨x,hx,hc⟩ := List.mem_filterMap.mp hc
        rw [laterComponent_name hc hn]
        exact List.mem_cons_of_mem _ hx
  exact segments_length hseg

theorem length_le_utf8 (s : String) : s.toList.length ≤ s.toUTF8.data.toList.length := by
  have hbytes : s.toUTF8 = s.toList.utf8Encode := String.utf8Encode_toList.symm
  have henc : ∀ cs : List Char, cs.length ≤ (cs.flatMap String.utf8EncodeChar).length := by
    intro cs
    induction cs with
    | nil => exact Nat.le_refl _
    | cons c cs ih =>
        have := c.utf8Size_pos
        rw [List.flatMap_cons,List.length_append,String.length_utf8EncodeChar,List.length_cons]
        omega
  rw [hbytes,List.utf8Encode]
  simpa using henc s.toList

theorem lockName_not_mem (l : Location) : lockName l ∉ names l.asStr := by
  intro h
  have hle := names_length h
  have hutf := length_le_utf8 l.asStr
  have hsuffix : (".lock" : String).toList.length = 5 := rfl
  rw [lockName,String.toList_append,List.length_append,String.toList_ofList,hexText_length,
    hsuffix] at hle
  omega

end Lengths

section Solitary

def solitary (root : Path) (l : Location) : Setting where
  root := root
  sites := (· = l)
  old := fun _ => False
  origin := fun _ _ => False
  blank := fun _ _ => False
  faults := True
  lax := True

variable {root : Path} {l : Location}

theorem lock_not_prefix (root : Path) {p : List String} (hp : p <+: names l.asStr) :
    ¬ lockPath root l <+: root ++ p := by
  intro h
  have hl := (List.prefix_append_right_inj _).mp h
  refine lockName_not_mem l (hp.subset (hl.subset ?_))
  simp

theorem solitary_spaced (hacc : accepted l.asStr = true) : (solitary root l).Spaced where
  accepted := by
    rintro _ rfl
    exact hacc
  notLock := by
    intro x y hx hy he
    obtain rfl : x = l := hx
    obtain rfl : y = x := hy
    refine lock_not_prefix root (List.prefix_refl (names y.asStr)) ⟨[],?_⟩
    rw [List.append_nil]
    exact he.symm
  apart := by
    rintro _ _ rfl rfl hp
    obtain ⟨name,hname,-⟩ := Setting.object_split (K := solitary root _) hacc
    have := hp.length_le
    rw [hname,List.length_append,List.length_singleton] at this
    omega
  lockApart := by
    rintro _ _ rfl rfl
    exact lock_not_prefix root (List.dropLast_prefix _)
  temporaryApart := by
    rintro _ _ id rfl rfl hp
    have := hp.length_le
    rw [Setting.temporary,List.length_append,List.length_singleton] at this
    omega

theorem solitary_regular (hacc : accepted l.asStr = true)
    (hlocks : (join root l).path ≠ root ++ [lockDir]) : (solitary root l).Regular l :=
  ⟨hacc,hlocks,(solitary_spaced hacc).notLock l l rfl rfl,(solitary_spaced hacc).lockApart l l rfl rfl⟩

-- A disk whose entries are among those a crash may leave, all of them on files that were made.
structure Consistent (d : Disk) : Prop where
  wf : d.Wf
  current : ∀ p, d.entries p ∈ d.kept p
  bounded : ∀ p ino, some (.file ino) ∈ d.kept p → ino < d.next
  top : ∀ n ∈ d.kept [], n = none

def Founded (root : Path) (l : Location) (d : Disk) : Prop :=
  ∀ p, p ≠ [] → p <+: root ++ (names l.asStr).dropLast → ∀ n ∈ d.kept p, n = some .dir

-- A location whose directories and object, if there is one, would outlive a crash, below a root
-- that is ready for use.
structure Prepared (root : Path) (l : Location) (old : Option Object) (d : Disk) : Prop where
  accepted : accepted l.asStr = true
  consistent : Consistent d
  above : Founded root l d
  object : ∀ n ∈ d.kept (join root l).path, Stands d l old n ∧
    ∀ ino, n = some (.file ino) → d.synced ino = true
  locksDir : d.entries (root ++ [lockDir]) = some .dir
  locks : ∀ n ∈ d.kept (root ++ [lockDir]), n = none ∨ n = some .dir
  lock : ∀ n ∈ d.kept (lockPath root l), n = none ∨ ∃ ino, n = some (.file ino)
  free : ∀ ino, d.locks ino = []

variable {old : Option Object} {d d₂ : Disk}

theorem Prepared.notLocks (h : Prepared root l old d) : (join root l).path ≠ root ++ [lockDir] := by
  intro he
  have hn := (h.object _ (h.consistent.current _)).1
  rw [he,h.locksDir] at hn
  cases old with
  | none => simp [Stands] at hn
  | some o =>
      obtain ⟨-,ino,hf,-⟩ := hn
      simp at hf

theorem Prepared.regular (h : Prepared root l old d) : (solitary root l).Regular l :=
  solitary_regular h.accepted h.notLocks

theorem Prepared.spaced (h : Prepared root l old d) : (solitary root l).Spaced :=
  solitary_spaced h.accepted

theorem Prepared.unlinked (h : Prepared root l old d) {q : Path}
    (hq : q <+: (join root l).path ∨ q <+: lockPath root l) (t : Path) :
    some (.link t) ∉ d.kept q := by
  intro hm
  have habove : ¬ q <+: root ++ (names l.asStr).dropLast := by
    intro hp
    by_cases hne : q = []
    · subst hne
      simpa using h.consistent.top _ hm
    · simpa using h.above q hne hp _ hm
  rcases hq with hq | hq
  · obtain ⟨name,hname,-⟩ := Setting.object_split (K := solitary root l) h.accepted
    have hobject : (join root l).path = (root ++ (names l.asStr).dropLast) ++ [name] := hname
    rw [hobject] at hq
    rcases List.prefix_concat_iff.mp hq with he | hq
    · rw [← hobject] at he
      rw [he] at hm
      have hn := (h.object _ hm).1
      cases old <;> simp [Stands] at hn
    · exact habove hq
  · rw [show lockPath root l = (root ++ [lockDir]) ++ [lockName l] by simp [lockPath]] at hq
    rcases List.prefix_concat_iff.mp hq with he | hq
    · rw [he,List.append_assoc] at hm
      rcases h.lock _ hm with hn | ⟨ino,hn⟩ <;> simp at hn
    · rcases List.prefix_concat_iff.mp hq with he | hq
      · rw [he] at hm
        rcases h.locks _ hm with hn | hn <;> simp at hn
      · exact habove (hq.trans (List.prefix_append ..))

theorem Prepared.sane (h : Prepared root l old d) : Sane (solitary root l) d where
  wf := h.consistent.wf
  current := h.consistent.current
  bounded := h.consistent.bounded
  rootDir := by
    by_cases hne : root = []
    · subst hne
      rfl
    · have hc := h.above root hne (List.prefix_append ..) _ (h.consistent.current root)
      exact (Disk.node_of_ne hne).trans hc
  locksDir := h.locksDir
  unlinked := by
    rintro _ rfl q hq t
    exact h.unlinked hq t
  ancestors := by
    rintro _ rfl q hne hq ino hm
    simpa using h.above q hne hq _ hm
  locksKept := by
    intro ino hm
    rcases h.locks _ hm with hn | hn <;> simp at hn
  lockKept := by
    rintro _ rfl hm
    rcases h.lock _ hm with hn | ⟨ino,hn⟩ <;> simp at hn

end Solitary

section Start

variable {K : Setting} {l : Location} {b : Bytes} {i : ℕ} {d₀ d : Disk} {h : Answers}

theorem Progress.start (hs : Sane K d₀) : Progress K l b i d₀ [] d₀ :=
  ⟨hs,Nat.le_refl _,fun _ hid => hid,fun _ _ => ⟨rfl,rfl⟩,fun _ _ _ _ => .rfl,
    fun _ _ _ => ⟨fun _ hn => hn,id⟩,fun _ hn => .inl hn⟩

theorem Going.start (hs : Sane K d₀) : Going K l b i d₀ none none [] d₀ :=
  ⟨.start hs,fun hfree k m hm => absurd hm (hfree k m),rfl⟩

theorem Going.free {first : Option Uuid} (hg : Going K l b i d₀ none first h d)
    (hfree : ∀ ino, d₀.locks ino = []) (ino : ℕ) : d.locks ino = [] := by
  refine List.eq_nil_iff_forall_not_mem.mpr ?_
  rintro ⟨j,m⟩ hm
  by_cases hj : j = i
  · subst hj
    have := hg.mine (by simp [hfree]) ino m hm
    simp at this
  · rw [hg.progress.locks ino j m hj,hfree] at hm
    simp at hm

theorem Settled.going {v : Option Version} (hs : Settled K l b i d₀ none v h d) :
    ∃ first, Going K l b i d₀ none first h d := by
  cases v with
  | none => exact hs
  | some v =>
      obtain ⟨rev,-,hland⟩ := hs
      exact ⟨some rev,hland.going⟩

end Start

section Outcomes

variable {root : Path} {l : Location} {b : Bytes} {i : ℕ} {d₀ d d₂ : Disk} {h : Answers}
  {old : Option Object}

def OldOrNew (old : Option Object) (b : Bytes) (h : Answers) (o : Option Object) : Prop :=
  o = old ∨ ∃ rev, firstDraw h = some rev ∧ o = some ⟨b,revisionVersion rev⟩

theorem Stands.unique {n : Option Node} {o o' : Option Object} (h : Stands d l o n)
    (h' : Stands d l o' n) : o = o' := by
  cases o <;> cases o'
  · rfl
  · obtain ⟨-,ino,hf,-⟩ := h'
    simp [show n = none from h] at hf
  · obtain ⟨-,ino,hf,-⟩ := h
    simp [show n = none from h'] at hf
  · obtain ⟨-,ino,hf,hd⟩ := h
    obtain ⟨-,ino',hf',hd'⟩ := h'
    rw [hf] at hf'
    obtain rfl := Node.file.inj (Option.some.inj hf')
    rw [hd] at hd'
    rw [Except.ok.inj hd']

theorem Complete.stands {rev : Uuid} {ino : ℕ} (hc : Complete l b rev ino d)
    (hdata : ∀ ino, d.synced ino = true → d₂.data ino = d.data ino) :
    Stands d₂ l (some ⟨b,revisionVersion rev⟩) (some (.file ino)) :=
  ⟨hc.plain,ino,rfl,by rw [hdata ino hc.synced,hc.data]⟩

theorem Progress.stands (hp : Prepared root l old d₀)
    (hg : Progress (solitary root l) l b i d₀ h d)
    (hn : d₂.entries (join root l).path ∈ d.kept (join root l).path)
    (hdata : ∀ ino, d.synced ino = true → d₂.data ino = d.data ino) :
    ∃ o, Stands d₂ l o (d₂.entries (join root l).path) ∧ OldOrNew old b h o := by
  rcases hg.object _ hn with hold | ⟨rev,ino,hf,he,hc⟩
  · have hkept : d₂.entries (join root l).path ∈ d₀.kept (join root l).path := hold
    obtain ⟨hst,hsync⟩ := hp.object _ hkept
    refine ⟨old,hst.congr (fun ino hino => ?_),.inl rfl⟩
    have hlt : ino < d₀.next := hp.consistent.bounded (join root l).path ino (hino ▸ hkept)
    obtain ⟨h₁,h₂⟩ := hg.intact ino hlt
    rw [hdata ino (by rw [h₂,hsync ino hino]),h₁]
  · refine ⟨some ⟨b,revisionVersion rev⟩,?_,.inr ⟨rev,hf,rfl⟩⟩
    rw [he]
    exact hc.stands hdata

theorem Landed.stands {K : Setting} {rev : Uuid} (hland : Landed K l b i d₀ none rev h d)
    (hn : d₂.entries (K.object l).path ∈ d.kept (K.object l).path)
    (hdata : ∀ ino, d.synced ino = true → d₂.data ino = d.data ino) :
    Stands d₂ l (some ⟨b,revisionVersion rev⟩) (d₂.entries (K.object l).path) := by
  obtain ⟨ino,hk,hc⟩ := hland.kept
  rw [hk,List.mem_singleton] at hn
  rw [hn]
  exact hc.stands hdata

theorem Progress.firm (hp : Prepared root l old d₀)
    (hg : Progress (solitary root l) l b i d₀ h d) :
    ∀ q ∈ ancestors (join root l).path, ∀ n ∈ d.kept q, n = some .dir := by
  intro q hq n hn
  obtain ⟨hne,s,hs,he⟩ := mem_ancestors.mp hq
  obtain ⟨name,hname,-⟩ := Setting.object_split (K := solitary root l) hp.accepted
  have hpre : q <+: (solitary root l).dir l := prefix_of_split (hname.symm.trans he) hs
  exact (hg.above q hne hpre).2 (hp.above q hne hpre) n hn

variable {q : Request} {c c' : Config Disk SysReply Outcome} {tr : Trace SysReply}

theorem Progress.of_run (hp : Prepared root l old c.world) (hrec : Recorded l c.world)
    (hq : Writes l b q) (hcall : c.calls i = q.outcome <$> serve ⟨root⟩ q)
    (h : Run (Env True) c tr c') (hown : ∀ ev ∈ tr, ev.call = i) :
    Progress (solitary root l) l b i c.world (tr.map Event.answer) c'.world ∧
      ∀ out, c'.calls i = .done out →
        Settled (solitary root l) l b i c.world none out.written (tr.map Event.answer) c'.world :=
  Throughout.run h hown hcall
    (serve_settled hp.spaced hp.regular rfl hrec hq (.start hp.sane))

theorem write_all_or_nothing (hp : Prepared root l old c.world) (hrec : Recorded l c.world)
    (hq : Writes l b q) (hcall : c.calls i = q.outcome <$> serve ⟨root⟩ q)
    (h : Run (Env True) c tr c') (hown : ∀ ev ∈ tr, ev.call = i) (j : ℕ) :
    (∀ d₂, Crash c'.world d₂ →
      ∃ o d₃, runAlone j (reopen root l).run d₂ = some (.ok (.ok o),d₃) ∧
        OldOrNew old b (tr.map Event.answer) o ∧
        ∀ out v, c'.calls i = .done out → out.written = some v → o = some ⟨b,v⟩) ∧
    ∀ out, c'.calls i = .done out →
      ∃ o d₃, runAlone j (get ⟨root⟩ l) c'.world = some (.ok o,d₃) ∧
        OldOrNew old b (tr.map Event.answer) o ∧ ∀ v, out.written = some v → o = some ⟨b,v⟩ := by
  obtain ⟨hg,hdone⟩ := Progress.of_run hp hrec hq hcall h hown
  constructor
  · intro d₂ hcrash
    have hn := hcrash.entry_firm (hg.firm hp)
    have hdata : ∀ ino, c'.world.synced ino = true → d₂.data ino = c'.world.data ino :=
      fun ino hs => hcrash.data hs
    obtain ⟨o,ho,hon⟩ := hg.stands hp hn hdata
    obtain ⟨d₃,hrun⟩ := (hg.sane.legible_crash rfl hcrash ho).reopen (i := j) hp.regular
    refine ⟨o,d₃,hrun,hon,fun out v hout hv => ?_⟩
    have hs := hdone out hout
    rw [hv] at hs
    obtain ⟨rev,rfl,hland⟩ := hs
    exact ho.unique (hland.stands hn hdata)
  · intro out hout
    have hs := hdone out hout
    obtain ⟨first,hgoing⟩ := hs.going
    have hn := hg.sane.current (join root l).path
    obtain ⟨o,ho,hon⟩ := hg.stands hp hn (fun _ _ => rfl)
    obtain ⟨d₃,hrun⟩ := (hg.sane.legible_free rfl (hgoing.free hp.free) ho).get (i := j) hp.regular
    refine ⟨o,d₃,hrun,hon,fun v hv => ?_⟩
    rw [hv] at hs
    obtain ⟨rev,rfl,hland⟩ := hs
    exact ho.unique (hland.stands hn (fun _ _ => rfl))

end Outcomes

section Furnished

theorem structural_recorded {l : Location} (h : Structural l) (d : Disk) : Recorded l d := by
  obtain ⟨ns,kind,name,-,hl⟩ := h
  intro id hid
  rw [(names_structure hl).2.1] at hid
  simp only [List.getLast?_cons_cons,List.getLast?_singleton,Option.some.injEq] at hid
  exact absurd hid (jsonName_ne_temporaryName name id)

def shelves : List Path := [["shop"],["shop","maps"],[lockDir]]

def furnished : Disk := .untouched (fun p => if p ∈ shelves then some .dir else none)

theorem furnished_prepared (i : ℕ) : Prepared [] (box i) none furnished := by
  have hnames := names_structure (box_structure i)
  have hkept : ∀ p, furnished.kept p = [if p ∈ shelves then some .dir else none] := fun _ => rfl
  have hbare : ∀ p, p ∉ shelves → furnished.kept p = [none] := by
    intro p hp
    rw [hkept,if_neg hp]
  refine ⟨hnames.1,⟨?_,fun p => by simp [furnished,Disk.untouched],?_,?_⟩,?_,?_,rfl,?_,?_,
    fun _ => rfl⟩
  · intro p c hp
    have hmem : p ++ [c] ∈ shelves := by
      by_contra hne
      simp [furnished,Disk.untouched,hne] at hp
    have habove : p = [] ∨ p = ["shop"] := by
      simp only [shelves,List.mem_cons,List.not_mem_nil,or_false] at hmem
      rcases p with _ | ⟨x,_ | ⟨y,p⟩⟩ <;> simp_all
    rcases habove with rfl | rfl <;> simp [Disk.node,furnished,Disk.untouched,shelves]
  · intro p ino hm
    rw [hkept,List.mem_singleton] at hm
    split at hm <;> simp at hm
  · intro n hn
    rwa [hbare [] (by simp [shelves]),List.mem_singleton] at hn
  · intro q hne hq n hn
    have hmem : q ∈ shelves := by
      rw [hnames.2.1] at hq
      rcases q with _ | ⟨x,_ | ⟨y,q⟩⟩ <;> simp_all [shelves]
    rwa [hkept,if_pos hmem,List.mem_singleton] at hn
  · intro n hn
    rw [hbare _ (by simp [join,hnames.2.1,shelves]),List.mem_singleton] at hn
    subst hn
    exact ⟨rfl,by simp⟩
  · intro n hn
    rw [hkept,if_pos (by simp [shelves]),List.mem_singleton] at hn
    exact .inr hn
  · intro n hn
    rw [hbare _ (by simp [lockPath,shelves,lockDir]),List.mem_singleton] at hn
    exact .inl hn

theorem furnished_all_or_nothing :
    ∃ (tr : Trace SysReply) (d' : Disk) (out : Outcome) (o : Option Object) (d₃ : Disk),
      Prepared [] (box 0) none furnished ∧ (∀ ev ∈ tr, ev.call = 0) ∧
      Run (Env True) ⟨furnished,fun i => (packing i).outcome <$> serve ⟨[]⟩ (packing i)⟩ tr
        ⟨d',Function.update (fun i => (packing i).outcome <$> serve ⟨[]⟩ (packing i)) 0
          (.done out)⟩ ∧
      runAlone 1 (get ⟨[]⟩ (box 0)) d' = some (.ok o,d₃) ∧
      OldOrNew none [] (tr.map Event.answer) o ∧ ∀ v, out.written = some v → o = some ⟨[],v⟩ := by
  have halone : Alone 0 3 ⟨none,2⟩ furnished := by
    refine ⟨fun ino => .inl rfl,fun id hid => ?_⟩
    exact absurd rfl hid
  let calls : ℕ → Fs Outcome := fun i => (packing i).outcome <$> serve ⟨[]⟩ (packing i)
  have hcall : calls 0 = (packing 0).outcome <$> serve ⟨[]⟩ (packing 0) := rfl
  obtain ⟨tr,d',out,σ,hown,hrun,-,-⟩ := (packing_unhindered [] 0).completes hcall halone (by omega)
    (by simp)
  have hprep := furnished_prepared 0
  obtain ⟨-,hret⟩ := write_all_or_nothing hprep (structural_recorded (box_structural 0) _)
    (.inl rfl) rfl (hrun.mono Env.faulty) hown 1
  obtain ⟨o,d₃,hget,hon,hok⟩ := hret out (by simp)
  exact ⟨tr,d',out,o,d₃,hprep,hown,hrun.mono Env.faulty,hget,hon,hok⟩

end Furnished

end Filesystem

end Objsds
