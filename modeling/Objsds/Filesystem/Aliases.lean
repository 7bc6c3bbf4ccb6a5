import Objsds.Filesystem.Equivalence

namespace Objsds

open Foundation FilesystemStore

namespace Ideal

variable {ε : Type} {lax : Prop} {l : Location} {x : Version}

-- The version has been given out and is not that of the object any more.
def State.Superseded (s : State) (l : Location) (x : Version) : Prop :=
  x ∈ s.used ∧ ∀ o, s.objects l = some o → o.version ≠ x

theorem State.Issued.put {s : State} (h : s.Issued) (l : Location) (o : Object) :
    (s.put l o).Issued := by
  intro l' o' ho
  by_cases hl : l' = l
  · subst hl
    obtain rfl := Option.some.inj ((Objects.put_self s.objects l' o).symm.trans ho)
    exact List.mem_cons_self
  · exact List.mem_cons_of_mem _ (h l' o' ((Objects.put_other o hl).symm.trans ho))

theorem State.Superseded.put {s : State} (h : s.Superseded l x) (l' : Location) {b : Bytes}
    {v : Version} (hv : v ∉ s.used) : (s.put l' ⟨b,v⟩).Superseded l x := by
  refine ⟨List.mem_cons_of_mem _ h.1,fun o ho => ?_⟩
  by_cases hl : l = l'
  · subst hl
    obtain rfl := Option.some.inj ((Objects.put_self s.objects l ⟨b,v⟩).symm.trans ho)
    rintro rfl
    exact hv h.1
  · exact h.2 o ((Objects.put_other _ hl).symm.trans ho)

theorem env_put {s s' : (store ε lax).State} {ev : Event (Reply ε)}
    (h : (store ε lax).Env s ev s') : s' = s ∨ ∃ l b v, v ∉ s.used ∧ s' = s.put l ⟨b,v⟩ := by
  cases h with
  | nowMillis | nowV7 => exact .inl rfl
  | store hs =>
      cases hs with
      | got | getFailed | alreadyExists | createFailed | conflict | replaceFailed => exact .inl rfl
      | created l b v ha hf | createUncertain l b e v ha hf | replaced l o b v hc hf
      | replaceUncertain l o b e v hc hf => exact .inr ⟨l,b,v,hf,rfl⟩

theorem env_issued {s s' : (store ε lax).State} {ev : Event (Reply ε)}
    (h : (store ε lax).Env s ev s') (hs : s.Issued) : s'.Issued := by
  rcases env_put h with rfl | ⟨l,b,v,-,rfl⟩
  · exact hs
  · exact hs.put l ⟨b,v⟩

theorem env_superseded {s s' : (store ε lax).State} {ev : Event (Reply ε)}
    (h : (store ε lax).Env s ev s') (hs : s.Superseded l x) : s'.Superseded l x := by
  rcases env_put h with rfl | ⟨l',b,v,hv,rfl⟩
  · exact hs
  · exact hs.put l' hv

theorem replaced_superseded {s s' : (store ε lax).State} {i : ℕ} {b : Bytes} {v : Version}
    (hs : s.Issued) (h : (store ε lax).Env s ⟨i,.store (.replace l x b),.replaced v⟩ s') :
    (∃ o, s.objects l = some o ∧ o.version = x) ∧ s'.Superseded l x := by
  cases h with
  | store hr =>
      cases hr with
      | replaced _ o _ _ hc hf =>
          have hx := hs l o hc
          refine ⟨⟨o,hc,rfl⟩,List.mem_cons_of_mem _ hx,fun o' ho => ?_⟩
          obtain rfl := Option.some.inj ((Objects.put_self s.objects l ⟨b,v⟩).symm.trans ho)
          rintro rfl
          exact hf hx

theorem replaced_once {α : Type} {c c' : Config (store ε lax).State (Reply ε) α}
    {tr₁ tr₂ tr₃ : Trace (Reply ε)} {i j : ℕ} {b b' : Bytes} {v v' : Version}
    (h : Run (store ε lax).Env c (tr₁ ++ ⟨i,.store (.replace l x b),.replaced v⟩ ::
      (tr₂ ++ ⟨j,.store (.replace l x b'),.replaced v'⟩ :: tr₃)) c') (hs : c.world.Issued) :
    False := by
  obtain ⟨m,m',hm,hstep,hrest⟩ := h.split
  obtain ⟨n,n',hn,hstep',-⟩ := hrest.split
  have hi := hm.world_invariant (I := State.Issued) (fun h hs => env_issued h hs) hs
  have hi' := env_issued hstep.world hi
  have hin := hn.world_invariant (I := State.Issued) (fun h hs => env_issued h hs) hi'
  have hsup := hn.world_invariant (I := fun s => s.Superseded l x)
    (fun h hs => env_superseded h hs) (replaced_superseded hi hstep.world).2
  obtain ⟨⟨o,ho,hv⟩,-⟩ := replaced_superseded hin hstep'.world
  exact hsup.2 o ho hv

end Ideal

namespace Filesystem

-- The segments of a text that say something of where it leads.
def meaningful (text : String) : List (List Char) :=
  (segments text.toList).filter (fun s => s ≠ [] ∧ s ≠ ['.'])

def Respelt (l l' : Location) : Prop := l ≠ l' ∧ meaningful l.asStr = meaningful l'.asStr

def SameFile (root : Path) (l l' : Location) : Prop :=
  (join root l).path = (join root l').path ∧ (join root l).dirOnly = false ∧
    (join root l').dirOnly = false

def IsLockFile (root : Path) (l l' : Location) : Prop :=
  (join root l).path = lockPath root l' ∧ (join root l).dirOnly = false

section Texts

theorem laterComponent_accepted {s : List Char} {c : Component} (hs : laterComponent s = some c)
    (hc : c.name.isSome = true) : c = .normal (String.ofList s) := by
  unfold laterComponent at hs
  split at hs
  · simp at hs
  · split at hs
    · obtain rfl := Option.some.inj hs
      simp [Component.name] at hc
    · exact (Option.some.inj hs).symm

theorem laterComponent_none {s : List Char} : laterComponent s = none ↔ s = [] ∨ s = ['.'] := by
  unfold laterComponent
  split
  · rename_i h
    simpa using h
  · rename_i h
    split <;> simpa using h

theorem names_later {rest : List (List Char)}
    (h : ∀ c ∈ rest.filterMap laterComponent, c.name.isSome = true) :
    (rest.filterMap laterComponent).filterMap Component.name =
      (rest.filter (fun s => s ≠ [] ∧ s ≠ ['.'])).map String.ofList := by
  induction rest with
  | nil => rfl
  | cons s rest ih =>
      cases hs : laterComponent s with
      | none =>
          have hdrop : ¬ (s ≠ [] ∧ s ≠ ['.']) := by
            rcases laterComponent_none.mp hs with rfl | rfl <;> simp
          rw [List.filterMap_cons_none hs] at h ⊢
          rw [List.filter_cons_of_neg (by simpa using hdrop)]
          exact ih h
      | some c =>
          have hkeep : s ≠ [] ∧ s ≠ ['.'] := by
            refine not_or.mp (fun hn => ?_)
            rw [laterComponent_none.mpr hn] at hs
            simp at hs
          rw [List.filterMap_cons_some hs] at h ⊢
          obtain ⟨hc,hrest⟩ := List.forall_mem_cons.mp h
          obtain rfl := laterComponent_accepted hs hc
          have hname : (Component.normal (String.ofList s)).name = some (String.ofList s) := rfl
          rw [List.filter_cons_of_pos (by simpa using hkeep),List.map_cons,
            List.filterMap_cons_some hname,ih hrest]

theorem names_meaningful {text : String} (h : accepted text = true) :
    names text = (meaningful text).map String.ofList := by
  cases hs : segments text.toList with
  | nil => exact absurd hs (segments_ne_nil _)
  | cons s rest =>
      have hc : components text = (firstComponent s rest).toList ++ rest.filterMap laterComponent := by
        simp [components,hs]
      rw [accepted,hc,List.all_append,Bool.and_eq_true] at h
      obtain ⟨hfirst,hrest⟩ := h
      have hlater := names_later (List.all_eq_true.mp hrest)
      rw [names,hc,meaningful,hs,List.filterMap_append,hlater]
      by_cases hempty : s = []
      · subst hempty
        have hnone : firstComponent [] rest = none := by
          cases hf : firstComponent [] rest with
          | none => rfl
          | some c =>
              rw [hf] at hfirst
              simp only [firstComponent,if_true] at hf
              split at hf
              · simp at hf
              · obtain rfl := Option.some.inj hf
                simp [Component.name] at hfirst
        rw [hnone,List.filter_cons_of_neg (by simp)]
        rfl
      · by_cases hdot : s = ['.']
        · subst hdot
          simp [firstComponent,Component.name] at hfirst
        · have hlast : firstComponent s rest = laterComponent s := by
            rw [firstComponent,if_neg hempty,if_neg hdot]
          rw [hlast] at hfirst ⊢
          cases hl : laterComponent s with
          | none => exact absurd (laterComponent_none.mp hl) (by simp [hempty,hdot])
          | some c =>
              rw [hl] at hfirst
              obtain rfl := laterComponent_accepted hl (by simpa using hfirst)
              rw [List.filter_cons_of_pos (by simp [hempty,hdot])]
              rfl

theorem names_eq_iff {t t' : String} (h : accepted t = true) (h' : accepted t' = true) :
    names t = names t' ↔ meaningful t = meaningful t' := by
  rw [names_meaningful h,names_meaningful h']
  exact (List.map_injective_iff.mpr (fun _ _ he => String.ofList_inj.mp he)).eq_iff

end Texts

section Pairs

variable {l l' : Location} (root : Path)

theorem shared_file_locked_iff (h : accepted l.asStr = true) (h' : accepted l'.asStr = true) :
    (SameFile root l l' → lockPath root l = lockPath root l') ↔
      ¬ (Respelt l l' ∧ dirOnly l.asStr = false ∧ dirOnly l'.asStr = false) := by
  have hpath : (join root l).path = (join root l').path ↔
      meaningful l.asStr = meaningful l'.asStr := by
    rw [← names_eq_iff h h']
    exact List.append_right_inj root
  constructor
  · rintro hlock ⟨⟨hne,hsame⟩,hd,hd'⟩
    exact hne (lockPath_injective (hlock ⟨hpath.mpr hsame,hd,hd'⟩))
  · rintro hnot ⟨hsame,hd,hd'⟩
    by_contra hne
    refine hnot ⟨⟨?_,hpath.mp hsame⟩,hd,hd'⟩
    rintro rfl
    exact hne rfl

theorem lock_file_iff (h : accepted l.asStr = true) :
    (∀ l', ¬ IsLockFile root l l') ↔
      ¬ (dirOnly l.asStr = false ∧
        ∃ l', meaningful l.asStr = [lockDir.toList,(lockName l').toList]) := by
  have hpath : ∀ l', (join root l).path = lockPath root l' ↔
      meaningful l.asStr = [lockDir.toList,(lockName l').toList] := by
    intro l'
    have hlist : [lockDir,lockName l'] = [lockDir.toList,(lockName l').toList].map String.ofList := by
      simp
    rw [join,lockPath,List.append_right_inj,names_meaningful h,hlist]
    exact (List.map_injective_iff.mpr (fun _ _ he => String.ofList_inj.mp he)).eq_iff
  simp only [IsLockFile,hpath]
  constructor
  · rintro hnot ⟨hd,l',hl'⟩
    exact hnot l' ⟨hl',hd⟩
  · rintro hnot l' ⟨hl',hd⟩
    exact hnot ⟨hd,l',hl'⟩

end Pairs

def commons (root : Path) (sites : Location → Prop) (old : Uuid → Prop) : Setting where
  root := root
  sites := sites
  old := old
  origin := fun _ data => ∃ o, decode data = .ok o
  blank := fun _ _ => True
  faults := True
  lax := True

-- No two of the locations are spellings of one path, none is a lock, and an identifier that names
-- one of them has been drawn before.
structure Unaliased (sites : Location → Prop) (old : Uuid → Prop) : Prop where
  accepted : ∀ l, sites l → accepted l.asStr = true
  distinct : ∀ l l', sites l → sites l' → ¬ Respelt l l'
  unlocked : ∀ l l', sites l → meaningful l.asStr ≠ [lockDir.toList,(lockName l').toList]
  named : ∀ l id, sites l → (names l.asStr).getLast? = some (temporaryName id) → old id

section Commons

variable {root : Path} {sites : Location → Prop} {old : Uuid → Prop}

theorem Unaliased.sound (h : Unaliased sites old) : (commons root sites old).Sound where
  accepted := h.accepted
  separate := by
    intro l l' hl hl' hp
    by_contra hne
    refine h.distinct l l' hl hl' ⟨hne,?_⟩
    exact (names_eq_iff (h.accepted l hl) (h.accepted l' hl')).mp (List.append_cancel_left hp)
  notLock := by
    intro l l' hl _ hp
    have hn := List.append_cancel_left hp
    rw [names_meaningful (h.accepted l hl)] at hn
    refine h.unlocked l l' hl ?_
    refine (List.map_injective_iff.mpr (fun _ _ he => String.ofList_inj.mp he)) (hn.trans ?_)
    simp
  notTemporary := by
    intro l l' id hl _ hold hp
    have hn := names_ne_nil l (h.accepted l hl)
    have he := congrArg List.getLast? hp
    rw [Setting.object_path,List.getLast?_append_of_ne_nil _ hn,Setting.temporary,
      List.getLast?_concat] at he
    exact hold (h.named l id hl he)
  decodes := fun _ _ h => h
  blankDir := fun _ _ _ _ _ => trivial
  strict := fun hx => absurd trivial hx
  reliable := id

def Disk.forget (d : Disk) : Disk := { d with drawn := fun _ => none }

structure Vacant (root : Path) (d : Disk) : Prop where
  pristine : Pristine root d.forget
  locksDir : ∀ ino, some (.file ino) ∉ d.kept (root ++ [lockDir])

theorem Vacant.inv {d : Disk} (hv : Vacant root d) (hold : ∀ id, old id → d.drawn id ≠ none)
    (hsites : ∀ l, sites l → accepted l.asStr = true) :
    Inv (commons root sites old) d ⟨fun _ => none,[]⟩ := by
  have h := hv.pristine
  have hlock : ∀ l, d.entries ((commons root sites old).lock l) = none := fun l =>
    h.empty (by simp) (by simp)
  have hobject : ∀ l, sites l →
      d.entries ((commons root sites old).object l).path = none ∨
        d.entries ((commons root sites old).object l).path = some .dir := by
    intro l hl
    have hne := names_ne_nil l (hsites l hl)
    by_cases hd : names l.asStr = [lockDir]
    · refine .inr ?_
      rw [Setting.object_path,hd]
      exact h.locksDir
    · exact .inl (h.empty hne hd)
  constructor
  · constructor
    · exact h.wf
    · exact h.rootDir
    · exact (Disk.node_snoc lockDir).trans h.locksDir
    · exact fun l _ => h.clear_below _
    · exact fun l _ => h.clear_below _
    · exact h.current
    · exact h.bounded
    · intro l l' ino _ _ hf
      simp [hlock] at hf
    · intro _ l _ hd
      have hk : d.kept ((commons root sites old).lock l) = [none] := h.bare _ (by simp) (by simp)
      simp [hk] at hd
    · exact fun hx => absurd trivial hx
    · exact fun hx => absurd trivial hx
    · exact fun hx => absurd trivial hx
  · exact fun ino _ => h.locks ino
  · intro ino i hm
    have : d.locks ino = [] := h.locks ino
    simp [this] at hm
  · exact hold
  · simp
  · simp [Ideal.State.Issued]
  · intro l hl n hn
    cases n with
    | none => exact trivial
    | some n =>
        cases n with
        | dir | link => exact trivial
        | file ino =>
            have hne := names_ne_nil l (hsites l hl)
            by_cases hd : names l.asStr = [lockDir]
            · rw [Setting.object_path,hd] at hn
              exact absurd hn (hv.locksDir ino)
            · have hk : d.kept ((commons root sites old).object l).path = [none] := h.bare _ hne hd
              simp [hk] at hn
  · intro l hl _
    rcases hobject l hl with he | he <;> simp [Setting.Shows,Disk.visible,he]

theorem ask_oblivious (q : Request) : Oblivious (ask q) := by
  refine ⟨fun e v => ?_,fun _ => trivial⟩
  cases q <;> rfl

theorem commons_serves {q : Request} (h : sites q.location) :
    (commons root sites old).Serves (ask q) := by
  have hadmits : ∀ l b, (commons root sites old).Admits l b :=
    fun l b rev _ hb => ⟨_,decode_envelope rev (by omega)⟩
  refine ⟨?_,fun _ => trivial⟩
  rintro rq he
  obtain rfl := Effect.store.inj he
  refine ⟨h,?_⟩
  cases q with
  | get l => trivial
  | create l b => exact hadmits l b
  | replace l x b => exact hadmits l b

theorem replaced_event {s : Ideal.State} {rq : ℕ → Request} {lax : Prop}
    {T : Trace (Reply StoreError)}
    {m' : Config (Ideal.store StoreError lax).State (Reply StoreError) Outcome}
    (h : Run (Ideal.store StoreError lax).Env ⟨s,fun i => ask (rq i)⟩ T m') {i : ℕ} {l : Location}
    {x v : Version} {b : Bytes} (hq : rq i = .replace l x b)
    (hdone : m'.calls i = .done (.replaced v)) :
    ∃ tr₁ tr₂, T = tr₁ ++ ⟨i,.store (.replace l x b),.replaced v⟩ :: tr₂ := by
  have hf : (ask (rq i)).Follows (Trace.of i T) (m'.calls i) := h.follows i
  rw [hq,hdone] at hf
  rcases Program.follows_perform.mp hf with ⟨-,hd⟩ | ⟨r,h',hof,hf'⟩
  · simp at hd
  · obtain ⟨rfl,ho⟩ := Program.follows_done.mp hf'
    have hr : r = .replaced v := by
      cases r with
      | replaced w => rw [Outcome.replaced.inj (Program.done.inj ho)]
      | conflict | failed | uncertain => simp [Request.outcome] at ho
    subst hr
    obtain ⟨tr₁,⟨j,e,r'⟩,tr₂,rfl,rfl,hans,-⟩ := Trace.of_snoc_inv (h := []) hof
    cases hans
    exact ⟨tr₁,tr₂,rfl⟩

theorem replaces_exclude {d : Disk} {rq : ℕ → Request} {tr : Trace SysReply}
    {c' : Config Disk SysReply Outcome} (hd : Vacant root d)
    (hu : Unaliased (fun l => ∃ i, (rq i).location = l) (fun id => d.drawn id ≠ none))
    (h : Run (Env True) ⟨d,fun i => (rq i).outcome <$> serve ⟨root⟩ (rq i)⟩ tr c') {i j : ℕ}
    (hij : i ≠ j) {l l' : Location} {x v v' : Version} {b b' : Bytes}
    (hi : rq i = .replace l x b) (hj : rq j = .replace l' x b') (hsame : SameFile root l l')
    (hdi : c'.calls i = .done (.replaced v)) : c'.calls j ≠ .done (.replaced v') := by
  intro hdj
  simp only [← perform_ask] at h
  obtain ⟨marks,m',-,hrun,-,hdone⟩ := pool_refines
    (K := commons root (fun l => ∃ i, (rq i).location = l) (fun id => d.drawn id ≠ none)) hu.sound
    (hd.inv (fun _ hid => hid) hu.accepted) hd.pristine.locks (fun i => commons_serves ⟨i,rfl⟩)
    (fun _ i => ask_oblivious _) h
  have hl : ∃ k, (rq k).location = l := ⟨i,by rw [hi]; rfl⟩
  have hl' : ∃ k, (rq k).location = l' := ⟨j,by rw [hj]; rfl⟩
  obtain rfl := hu.sound.separate l l' hl hl' hsame.1
  obtain ⟨tr₁,tr₂,htr⟩ := replaced_event hrun hi (hdone i _ hdi)
  obtain ⟨tr₃,tr₄,htr'⟩ := replaced_event hrun hj (hdone j _ hdj)
  have hissued : Ideal.State.Issued ⟨fun _ => none,[]⟩ := by simp [Ideal.State.Issued]
  rcases Trace.split_cases (htr.symm.trans htr') with ⟨-,he⟩ | ⟨mid,rfl⟩ | ⟨mid,rfl⟩
  · exact hij (congrArg Event.call he)
  · rw [htr',List.append_assoc,List.cons_append] at hrun
    exact Ideal.replaced_once hrun hissued
  · rw [htr,List.append_assoc,List.cons_append] at hrun
    exact Ideal.replaced_once hrun hissued

theorem one_file_one_lock_iff (root : Path) :
    (∀ l l', accepted l.asStr = true → accepted l'.asStr = true →
      ((SameFile root l l' → lockPath root l = lockPath root l') ↔
        ¬ (Respelt l l' ∧ dirOnly l.asStr = false ∧ dirOnly l'.asStr = false))) ∧
    (∀ l, accepted l.asStr = true → ((∀ l', ¬ IsLockFile root l l') ↔
      ¬ (dirOnly l.asStr = false ∧
        ∃ l', meaningful l.asStr = [lockDir.toList,(lockName l').toList]))) ∧
    ∀ (d : Disk) (rq : ℕ → Request) (tr : Trace SysReply) (c' : Config Disk SysReply Outcome),
      Vacant root d →
      Unaliased (fun l => ∃ i, (rq i).location = l) (fun id => d.drawn id ≠ none) →
      Run (Env True) ⟨d,fun i => (rq i).outcome <$> serve ⟨root⟩ (rq i)⟩ tr c' →
      ∀ i j l l' x b b' v v', i ≠ j → rq i = .replace l x b → rq j = .replace l' x b' →
        SameFile root l l' → c'.calls i = .done (.replaced v) → c'.calls j ≠ .done (.replaced v') :=
  ⟨fun _ _ h h' => shared_file_locked_iff root h h',fun _ h => lock_file_iff root h,
    fun _ _ _ _ hd hu h _ _ _ _ _ _ _ _ _ hij hi hj hs hdi =>
      replaces_exclude hd hu h hij hi hj hs hdi⟩

def dotted : Location := ⟨"a/./b",by decide⟩

def undotted : Location := ⟨"a/b",by decide⟩

def sibling : Location := ⟨"a/c",by decide⟩

-- Two calls replace what a third created, and a fourth creates another object.
def rewrites : ℕ → Request
  | 0 => .create undotted [1]
  | 1 => .replace undotted (revisionVersion 0) [2]
  | 2 => .replace undotted (revisionVersion 0) [3]
  | _ => .create sibling [4]

theorem rewrites_unaliased (old : Uuid → Prop) :
    Unaliased (fun l => ∃ i, (rewrites i).location = l) old := by
  have hl : ∀ l, (∃ i, (rewrites i).location = l) → l = undotted ∨ l = sibling := by
    rintro l ⟨i,rfl⟩
    match i with
    | 0 | 1 | 2 => exact .inl rfl
    | _ + 3 => exact .inr rfl
  constructor
  · intro l hs
    rcases hl l hs with rfl | rfl <;> decide
  · rintro l l' hs hs' ⟨hne,hsame⟩
    rcases hl l hs with rfl | rfl <;> rcases hl l' hs' with rfl | rfl
    · exact hne rfl
    · exact absurd hsame (by decide)
    · exact absurd hsame (by decide)
    · exact hne rfl
  · intro l l' hs hlock
    have hhead : (meaningful l.asStr).head? = some lockDir.toList := congrArg List.head? hlock
    rcases hl l hs with rfl | rfl <;> exact absurd hhead (by decide)
  · intro l id hs hn
    have hlast : (names l.asStr).getLast? = some "b" ∨ (names l.asStr).getLast? = some "c" := by
      rcases hl l hs with rfl | rfl <;> decide
    have hp := temporaryName_last id
    rcases hlast with hb | hb
    all_goals
      rw [hb,Option.some.injEq] at hn
      rw [← hn] at hp
      simp at hp

theorem emptyRoot_vacant : Vacant [] emptyRoot :=
  ⟨emptyRoot_pristine,by simp [emptyRoot,Disk.untouched]⟩

theorem one_spelling_one_lock :
    (SameFile [] undotted undotted ∧ lockPath [] undotted = lockPath [] undotted) ∧
    (SameFile [] undotted sibling → lockPath [] undotted = lockPath [] sibling) ∧
    (∀ l, ¬ IsLockFile [] undotted l) ∧
    ∃ tr c', Run (Env True)
      ⟨emptyRoot,fun i => (rewrites i).outcome <$> serve ⟨[]⟩ (rewrites i)⟩ tr c' ∧
      (∃ v, c'.calls 2 = .done (.replaced v)) ∧ (∃ v, c'.calls 3 = .done (.created v)) ∧
      ∀ v, c'.calls 1 ≠ .done (.replaced v) := by
  have hsame : SameFile [] undotted undotted := ⟨rfl,by decide,by decide⟩
  have hacc : accepted undotted.asStr = true := by decide
  have hplay : plays Script.answer Script.disk [(0,40),(1,8),(2,40),(3,40),(1,40)]
      ⟨⟨[0,1,2,3,4,5],emptyRoot⟩,fun i => (rewrites i).outcome <$> serve ⟨[]⟩ (rewrites i)⟩
      (fun _ c => ended (fun o => o matches .replaced _) (c.calls 2) &&
        ended (fun o => o matches .created _) (c.calls 3)) = true := by
    decide +kernel
  obtain ⟨tr,c,hr,hends⟩ := Script.run hplay
  simp only [Bool.and_eq_true,ended_iff] at hends
  obtain ⟨⟨o,h2,ho⟩,⟨o',h3,ho'⟩⟩ := hends
  obtain ⟨v,rfl⟩ : ∃ v, o = .replaced v := by cases o <;> simp_all
  obtain ⟨v',rfl⟩ : ∃ v, o' = .created v := by cases o' <;> simp_all
  obtain ⟨hpair,hlock,hrun⟩ := one_file_one_lock_iff []
  refine ⟨⟨hsame,(hpair undotted undotted hacc hacc).mpr (fun hr => hr.1.1 rfl) hsame⟩,
    (hpair undotted sibling hacc (by decide)).mpr (fun hr => absurd hr.1.2 (by decide)),
    (hlock undotted hacc).mpr ?_,tr,c,hr.mono Env.faulty,⟨v,h2⟩,⟨v',h3⟩,fun w => ?_⟩
  · rintro ⟨-,l,hl⟩
    have hhead : (meaningful undotted.asStr).head? = some lockDir.toList := congrArg List.head? hl
    exact absurd hhead (by decide)
  · exact hrun emptyRoot rewrites tr c emptyRoot_vacant (rewrites_unaliased _)
      (hr.mono Env.faulty) 2 1 _ _ _ _ _ v w (by decide) rfl rfl hsame h2

def lockOfA : Location := ⟨".objsds-locks/61.lock",by decide⟩

theorem spellings_escape_locks :
    (SameFile [] dotted undotted ∧ accepted dotted.asStr = true ∧ accepted undotted.asStr = true ∧
      lockPath [] dotted ≠ lockPath [] undotted) ∧
    accepted lockOfA.asStr = true ∧ ∃ l, IsLockFile [] lockOfA l := by
  refine ⟨⟨⟨by decide,by decide,by decide⟩,by decide,by decide,?_⟩,by decide,⟨"a",by decide⟩,
    by decide,by decide⟩
  intro h
  have := congrArg Location.asStr (lockPath_injective h)
  simp [dotted,undotted] at this

end Commons

end Filesystem

end Objsds
