import Objsds.Filesystem.Discipline
import Objsds.System.OnDisk

namespace Objsds

open Foundation

namespace Filesystem

open FilesystemStore

section Location

variable {root : Path} {l : Location} {d d' : Disk} {i : ℕ} {e : Sys} {r : SysReply e}

inductive Touched (root : Path) (l : Location) (d : Disk) : Sys → Disk → Prop
  | none {e : Sys} {d' : Disk} :
      d'.entries ((layout root).object l).path = d.entries ((layout root).object l).path →
      d'.kept ((layout root).object l).path = d.kept ((layout root).object l).path →
      Touched root l d e d'
  | synced {d' : Disk} :
      d'.entries ((layout root).object l).path = d.entries ((layout root).object l).path →
      d'.kept ((layout root).object l).path = [d.entries ((layout root).object l).path] →
      Touched root l d (.syncDir ((layout root).dir l)) d'
  | moved {temporary : Path} {ino : ℕ} {d' : Disk} :
      d'.entries ((layout root).object l).path = some (.file ino) →
      d'.kept ((layout root).object l).path =
        some (.file ino) :: d.kept ((layout root).object l).path →
      Touched root l d (.rename temporary ((layout root).object l)) d'

theorem Reshaped.touched (hl : Structural l) (hr : Reshaped (layout root) d e d') :
    Touched root l d e d' := by
  have hsound := layout_sound root
  have hregular : (layout root).Regular l := layout_regular hl
  obtain ⟨name,hname,-⟩ := Setting.object_split (K := layout root) hregular.accepted
  cases hr with
  | same he hk _ => exact .none (by rw [he]) (by rw [hk])
  | @synced p _ he hk _ =>
      by_cases hp : p = (layout root).dir l
      · subst hp
        refine .synced (by rw [he]) ?_
        rw [hk]
        simp [Disk.syncDir,hname]
      · refine .none (by rw [he]) ?_
        rw [hk]
        simp [Disk.syncDir,hname,Ne.symm hp]
  | put hplace hp hfree habove he hk hnext hfile =>
      rename_i p n
      have hne : ((layout root).object l).path ≠ p := by
        cases hplace with
        | dir hl' hp =>
            rintro hq
            exact (layout_strict root).apart l _ hl hl' (hq ▸ hp)
        | locks _ hp =>
            rintro hq
            exact hregular.outside (hq ▸ hp)
        | lock hl' => exact hsound.notLock l _ hl hl'
        | temporary hl' | removed hl' => exact hsound.notTemporary l _ _ hl hl' (fun h => h)
      exact .none (by rw [he,Function.update_of_ne hne]) (by rw [hk,Function.update_of_ne hne])
  | @moved l' id ino hl' =>
      have hne : ((layout root).object l).path ≠ (layout root).temporary l' id :=
        hsound.notTemporary l l' id hl hl' (fun h => h)
      by_cases hsame : l = l'
      · subst hsame
        refine @Touched.moved root l d _ ino _ ?_ ?_ <;>
          simp [Disk.set,Function.update_of_ne hne]
      · have hother : ((layout root).object l).path ≠ ((layout root).object l').path :=
          fun hp => hsame (hsound.separate l l' hl hl' hp)
        refine .none ?_ ?_ <;>
          simp [Disk.set,Function.update_of_ne hne,Function.update_of_ne hother]

theorem Reshaped.founded (hl : Structural l) (hs : Sane (layout root) d)
    (hr : Reshaped (layout root) d e d') (h : Founded root l d) : Founded root l d' := by
  have hstrict := layout_strict root
  intro q hq hdir n hn
  have hcurrent : d.entries q = some .dir := h q hq hdir _ (hs.current q)
  cases hr with
  | same _ hk _ => exact h q hq hdir n (by rwa [hk] at hn)
  | synced _ hk _ =>
      rw [hk] at hn
      exact h q hq hdir n (Disk.syncDir_kept hs.current hn)
  | put hplace hp hfree habove he hk hnext hfile =>
      rename_i p m
      have hne : q ≠ p := by
        rintro rfl
        exact hfree hcurrent
      exact h q hq hdir n (by rwa [hk,Function.update_of_ne hne] at hn)
  | @moved l' id ino hl' =>
      have h₁ : q ≠ ((layout root).object l').path := fun he => hstrict.apart l' l hl' hl (he ▸ hdir)
      have h₂ : q ≠ (layout root).temporary l' id :=
        fun he => hstrict.temporaryApart l' l id hl' hl (he ▸ hdir)
      simp only [Disk.set,Function.update_of_ne h₁,Function.update_of_ne h₂] at hn
      exact h q hq hdir n hn

end Location

section Stages

variable {d d' : Disk} {i : ℕ} {e : Sys} {r : SysReply e} {σ σ' : ℕ → Stage}

def Accounted (σ : ℕ → Stage) (d : Disk) : Prop :=
  ∀ j mode ino, (j,mode) ∈ d.locks ino → Stage.Holds ino (σ j)

theorem Stage.Holds.next {s : Stage} {ino : ℕ} (h : Stage.Holds ino s) (hu : ∀ k, e ≠ .unlock k) :
    Stage.Holds ino (discipline.next s e r) := by
  rcases h with rfl | rfl
  · cases e with
    | unlock k => exact absurd rfl (hu k)
    | rename p t => exact .inr rfl
    | _ => exact .inl rfl
  · cases e with
    | unlock k => exact absurd rfl (hu k)
    | _ => exact .inr rfl

theorem Accounted.step (h : Accounted σ d) (henv : Env True d ⟨i,e,r⟩ d')
    (hallow : discipline.allows (σ i) e) (hown : σ' i = discipline.next (σ i) e r)
    (hothers : ∀ j, j ≠ i → σ' j = σ j) : Accounted σ' d' := by
  have hkept : ∀ j mode ino, (j,mode) ∈ d.locks ino → (∀ k, e ≠ .unlock k) →
      Stage.Holds ino (σ' j) := by
    intro j mode ino hm hu
    by_cases hj : j = i
    · subst hj
      rw [hown]
      exact (h j mode ino hm).next hu
    · rw [hothers j hj]
      exact h j mode ino hm
  intro j mode ino hm
  cases e with
  | lock k m =>
      cases henv with
      | fault => exact hkept j mode ino hm (by simp)
      | exec he =>
          simp only [Disk.exec] at he
          split at he
          · obtain ⟨rfl,rfl⟩ := Prod.mk.inj (Option.some.inj he)
            rcases Disk.mem_lock.mp hm with ⟨rfl,rfl,-⟩ | hm
            · rw [hown]
              cases hs : σ j with
              | idle => exact .inl rfl
              | held | renamed =>
                  rw [hs] at hallow
                  exact hallow.elim
            · exact hkept j mode ino hm (by simp)
          · simp at he
  | unlock k =>
      cases henv with
      | fault _ hr => simp [Sys.failure] at hr
      | exec he =>
          obtain ⟨-,rfl⟩ := Prod.mk.inj (Option.some.inj he)
          obtain ⟨hheld,hne⟩ := Disk.mem_unlock.mp hm
          have hj : j ≠ i := by
            rintro rfl
            refine hne ?_ rfl
            rcases h j mode ino hheld with hs | hs <;> rw [hs] at hallow <;> exact hallow.symm
          rw [hothers j hj]
          exact h j mode ino hheld
  | _ =>
      have hlocks := (env_framed henv).locks (by simp) (by simp)
      rw [hlocks] at hm
      exact hkept j mode ino hm (by simp)

end Stages

section Confirmations

variable {ε : Type} {l : Location} {a : Event (Reply ε)}

theorem confirms_shown {K : Setting} {x : Sigma SysReply} {a : Event (Reply StoreError)}
    (h : Confirms l a) (hs : Shown K x a.answer) : x = ⟨.syncDir (K.dir l),.ok ()⟩ := by
  cases h with
  | created | replaced => exact hs

theorem confirms_changes {lax : Prop} {s s' : (Ideal.store ε lax).State} (h : Confirms l a)
    (henv : (Ideal.store ε lax).Env s a s') (hi : Ideal.State.Issued s) :
    (Ideal.store ε lax).objects s' l ≠ (Ideal.store ε lax).objects s l := by
  have hput : ∀ b v, v ∉ Ideal.State.used s →
      Ideal.State.objects (Ideal.State.put s l ⟨b,v⟩) l ≠ Ideal.State.objects s l := by
    intro b v hfresh he
    exact hfresh (hi l ⟨b,v⟩ (he.symm.trans (Objects.put_self ..)))
  cases h with
  | created i b v =>
      cases henv with
      | store hs =>
          cases hs with
          | created _ _ _ _ hfresh => exact hput b v hfresh
  | replaced i x b v =>
      cases henv with
      | store hs =>
          cases hs with
          | replaced _ o _ _ _ hfresh => exact hput b v hfresh

end Confirmations

section Backing

variable {α : Type} {root : Path} {l : Location} {A : ℕ → Action StoreError α} {s : Ideal.State}
  {T T' : Trace (Reply StoreError)} {d d' : Disk} {n : Option Node}

-- What the entry leads to was on record once, and no write has been confirmed since.
def Backed (A : ℕ → Action StoreError α) (s : Ideal.State) (l : Location)
    (T : Trace (Reply StoreError)) (d : Disk) (n : Option Node) : Prop :=
  ∃ T₁ T₂ m₁, T = T₁ ++ T₂ ∧ Run shaky.Env ⟨s,A⟩ T₁ m₁ ∧ Stands d l (shaky.objects m₁.world l) n ∧
    ∀ a ∈ T₂, ¬ Confirms l a

theorem Backed.grow (h : Backed A s l T d n) (hT : ∀ a ∈ T', ¬ Confirms l a)
    (hd : ∀ ino, n = some (.file ino) → d'.data ino = d.data ino) : Backed A s l (T ++ T') d' n := by
  obtain ⟨T₁,T₂,m₁,rfl,hr,hstands,hnone⟩ := h
  refine ⟨T₁,T₂ ++ T',m₁,by simp,hr,hstands.congr hd,fun a ha => ?_⟩
  rcases List.mem_append.mp ha with ha | ha
  · exact hnone a ha
  · exact hT a ha

theorem Inv.stands (h : Inv (Filesystem.hazards root) d s) (hl : Structural l)
    (hfree : ∀ i, ¬ d.Holds (lockPath root l) i .exclusive) :
    Stands d l (s.objects l) (d.entries ((layout root).object l).path) := by
  have hshow : (layout root).Shows d l (s.objects l) := h.settled l hl hfree
  have hpossible := h.possible l hl _ (h.tree.current _)
  have hplain : dirOnly l.asStr = false := (layout_strict root).plain l hl
  change (Filesystem.hazards root).Possible d l (d.entries ((layout root).object l).path) at hpossible
  cases hn : d.entries ((layout root).object l).path with
  | none =>
      cases ho : s.objects l with
      | none => rfl
      | some o =>
          rw [ho] at hshow
          obtain ⟨ino,hv,-⟩ := hshow
          simp [Disk.visible,hn] at hv
  | some n =>
      rw [hn] at hpossible
      cases n with
      | dir | link t => exact absurd hpossible (by simp [Setting.Possible,Filesystem.hazards,layout])
      | file ino =>
          have hv := Disk.visible_of_entry (t := (layout root).object l) hplain hn
          cases ho : s.objects l with
          | none =>
              rw [ho] at hshow
              exact absurd (hshow.symm.trans hv) (by simp)
          | some o =>
              rw [ho] at hshow
              obtain ⟨k,hk,hdec⟩ := hshow
              obtain rfl := Option.some.inj (hv.symm.trans hk)
              exact ⟨hplain,ino,rfl,hdec⟩

variable {i : ℕ} {e : Sys} {r : SysReply e} {σ σ' : ℕ → Stage} {w w' : Ideal.State}

def Renewing (root : Path) (l : Location) (σ : ℕ → Stage) (d : Disk) : Prop :=
  ∃ j ino, d.entries (lockPath root l) = some (.file ino) ∧ (j,.exclusive) ∈ d.locks ino ∧
    σ j = .renamed ino

theorem Renewing.step (h : Renewing root l σ d) (hl : Structural l)
    (hi : Inv (hazards root) d w) (hg : Guar (hazards root) i d w d' w')
    (henv : Env True d ⟨i,e,r⟩ d') (hallow : discipline.allows (σ i) e)
    (hown : σ' i = discipline.next (σ i) e r) (hothers : ∀ j, j ≠ i → σ' j = σ j) :
    Renewing root l σ' d' ∨ ∀ k, ¬ d'.Holds (lockPath root l) k .exclusive := by
  obtain ⟨j,ino,hf,hm,hs⟩ := h
  have hf' : d'.entries (lockPath root l) = some (.file ino) := hg.lockFile l ino hl hf
  by_cases hj : j = i
  · subst hj
    rw [hs] at hallow hown
    have hstays : σ' j = .renamed ino → (∀ k mode, e ≠ .lock k mode) → (∀ k, e ≠ .unlock k) →
        Renewing root l σ' d' := by
      intro hs' hlock hunlock
      refine ⟨j,ino,hf',?_,hs'⟩
      rwa [(env_framed henv).locks hlock hunlock]
    cases e with
    | openDir p | syncDir p | removeFile p => exact .inl (hstays hown (by simp) (by simp))
    | unlock k =>
        obtain rfl : k = ino := hallow
        cases henv with
        | fault _ hr => simp [Sys.failure] at hr
        | exec he =>
            obtain ⟨-,rfl⟩ := Prod.mk.inj (Option.some.inj he)
            refine .inr ?_
            rintro k' ⟨ino',hf₂,hm₂⟩
            obtain rfl := Node.file.inj (Option.some.inj (hf.symm.trans hf₂))
            obtain ⟨hm₂,hne⟩ := Disk.mem_unlock.mp hm₂
            rw [hi.exclusive k j hm,List.mem_singleton] at hm₂
            exact hne rfl (Prod.mk.inj hm₂).1
    | _ => exact hallow.elim
  · exact .inl ⟨j,ino,hf',(hg.locks j .exclusive ino hj).mpr hm,(hothers j hj).trans hs⟩

theorem Accounted.renamed (h : Accounted σ d) {mode : LockMode} {ino : ℕ} {p : Path}
    (hm : (i,mode) ∈ d.locks ino) (hallow : discipline.allows (σ i) (.syncDir p)) :
    σ i = .renamed ino := by
  rcases h i mode ino hm with hs | hs
  · rw [hs] at hallow
    exact hallow.elim
  · exact hs

theorem Accounted.held (h : Accounted σ d) {mode : LockMode} {ino : ℕ} {p : Path} {t : Target}
    (hm : (i,mode) ∈ d.locks ino) (hallow : discipline.allows (σ i) (.rename p t)) :
    σ i = .held ino := by
  rcases h i mode ino hm with hs | hs
  · exact hs
  · rw [hs] at hallow
    exact hallow.elim

-- What a crash may find at the location has been on record since the last write that was confirmed,
-- or a call has put it there and not yet said so.
def Secured (root : Path) (A : ℕ → Action StoreError α) (s : Ideal.State) (l : Location)
    (T : Trace (Reply StoreError)) (σ : ℕ → Stage) (d : Disk) : Prop :=
  ∀ n ∈ d.kept ((layout root).object l).path, Backed A s l T d n ∨
    (n = d.entries ((layout root).object l).path ∧ Renewing root l σ d)

theorem Secured.confirmed (hacc : Accounted σ d) (hl : Structural l)
    (hg : Guar (hazards root) i d w d' w')
    (hallow : discipline.allows (σ i) (.syncDir ((layout root).dir l)))
    (henv : Env True d ⟨i,.syncDir ((layout root).dir l),.ok ()⟩ d')
    (hown : σ' i = discipline.next (σ i) (.syncDir ((layout root).dir l)) (.ok ()))
    (hchange : w'.objects l ≠ w.objects l) : Secured root A s l T σ' d' := by
  have hholds : d.Holds (lockPath root l) i .exclusive := by
    by_contra hnot
    exact hchange (hg.objects l hl hnot).1
  obtain ⟨ino,hf,hm⟩ := hholds
  have hs := hacc.renamed hm hallow
  obtain ⟨name,hname,-⟩ := Setting.object_split (K := layout root) ((layout_sound root).accepted l hl)
  cases henv with
  | fault _ hr => simp [Sys.failure] at hr
  | exec he =>
      obtain ⟨-,rfl⟩ := Prod.mk.inj (Option.some.inj he)
      intro n hn
      have hn : n = d.entries ((layout root).object l).path := by
        simpa [Disk.syncDir,hname] using hn
      refine .inr ⟨hn,i,ino,hf,hm,?_⟩
      rw [hown,hs]
      rfl

theorem Secured.step (h : Secured root A s l T σ d) (hl : Structural l) (hacc : Accounted σ d)
    (hi : Inv (hazards root) d w) (hi' : Inv (hazards root) d' w')
    (hg : Guar (hazards root) i d w d' w') (henv : Env True d ⟨i,e,r⟩ d')
    (htouched : Touched root l d e d') (hallow : discipline.allows (σ i) e)
    (hown : σ' i = discipline.next (σ i) e r) (hothers : ∀ j, j ≠ i → σ' j = σ j)
    (hrun : ∃ m', Run shaky.Env ⟨s,A⟩ (T ++ T') m' ∧ m'.world = w')
    (hT : ∀ a ∈ T', ¬ Confirms l a) : Secured root A s l (T ++ T') σ' d' := by
  have hgrow : ∀ n ∈ d.kept ((layout root).object l).path, Backed A s l T d n →
      Backed A s l (T ++ T') d' n := by
    intro n hn hb
    refine hb.grow hT (fun ino hino => ?_)
    subst hino
    exact (hg.data ino (hi.tree.bounded _ ino hn) (.inr ⟨l,hl,hn⟩)).1
  have hstays : ∀ n ∈ d.kept ((layout root).object l).path,
      d'.entries ((layout root).object l).path = d.entries ((layout root).object l).path →
      Backed A s l (T ++ T') d' n ∨
        (n = d'.entries ((layout root).object l).path ∧ Renewing root l σ' d') := by
    intro n hn hsame
    rcases h n hn with hb | ⟨rfl,hren⟩
    · exact .inl (hgrow n hn hb)
    · rcases hren.step hl hi hg henv hallow hown hothers with hren | hfree
      · exact .inr ⟨hsame.symm,hren⟩
      · obtain ⟨m',hr,rfl⟩ := hrun
        refine .inl ⟨T ++ T',[],m',by simp,hr,?_,by simp⟩
        rw [← hsame]
        exact hi'.stands hl hfree
  intro n hn
  cases htouched with
  | none he hk => exact hstays n (by rwa [hk] at hn) he
  | synced he hk =>
      rw [hk,List.mem_singleton] at hn
      exact hstays n (hn ▸ hi.tree.current _) he
  | @moved temporary ino _ he hk =>
      by_cases hholds : d.Holds (lockPath root l) i .exclusive
      · obtain ⟨k,hf,hm⟩ := hholds
        have hs := hacc.held hm hallow
        rw [hk] at hn
        rcases List.mem_cons.mp hn with rfl | hn
        · refine .inr ⟨he.symm,i,k,hg.lockFile l k hl hf,?_,?_⟩
          · rwa [(env_framed henv).locks (by simp) (by simp)]
          · rw [hown,hs]
            rfl
        · rcases h n hn with hb | ⟨-,j,k',hf',hm',hs'⟩
          · exact .inl (hgrow n hn hb)
          · -- nobody else has the lock, and the caller has not put anything in place yet
            obtain rfl := Node.file.inj (Option.some.inj (hf.symm.trans hf'))
            rw [hi.exclusive k i hm,List.mem_singleton] at hm'
            obtain rfl := (Prod.mk.inj hm').1
            simp [hs] at hs'
      · have hsame : d'.entries ((layout root).object l).path =
            d.entries ((layout root).object l).path := by
          rw [he]
          exact (((hg.objects l hl hholds).2 ino).mp he).symm
        rw [hk,← he,hsame] at hn
        rcases List.mem_cons.mp hn with rfl | hn
        · exact hstays _ (hi.tree.current _) hsame
        · exact hstays n hn hsame

end Backing

section Runs

variable {α : Type} {root : Path} {l : Location} {A : ℕ → Action StoreError α} {s : Ideal.State}
  {d d₂ : Disk} {c c' : Config Disk SysReply α} {tr tr' : Trace SysReply}
  {marks : List (Option (Event (Reply StoreError)))} {m : Config shaky.State (Reply StoreError) α}

def stage (tr : Trace SysReply) (i : ℕ) : Stage := discipline.after .idle (Trace.of i tr)

theorem stage_snoc (tr : Trace SysReply) (ev : Event SysReply) :
    stage (tr ++ [ev]) ev.call = discipline.next (stage tr ev.call) ev.effect ev.reply := by
  rw [stage,Trace.of_snoc_self,Protocol.after_snoc]
  rfl

theorem stage_snoc_other (tr : Trace SysReply) (ev : Event SysReply) (j : ℕ) (hj : j ≠ ev.call) :
    stage (tr ++ [ev]) j = stage tr j := by
  rw [stage,Trace.of_snoc_other tr (Ne.symm hj)]
  rfl

theorem run_obeys (hr : Run (Env True) ⟨d,fun i => perform ⟨root⟩ (A i)⟩ tr c) (i : ℕ) :
    discipline.Obeys (fun _ s => s = .idle) (c.calls i) (stage tr i) :=
  discipline.run (fun _ => .idle) hr (fun i => obeys_perform _ (A i)) i

structure Secure (root : Path) (l : Location) (A : ℕ → Action StoreError α) (s : Ideal.State)
    (tr : Trace SysReply) (c : Config Disk SysReply α)
    (marks : List (Option (Event (Reply StoreError))))
    (m : Config shaky.State (Reply StoreError) α) : Prop where
  related : (simulation (hazards root)).Related (fun i a => At (Free i) (.done a))
    (fun _ a q => q = .done a) c m
  marked : (simulation (hazards root)).Marks tr marks
  run : Run shaky.Env ⟨s,A⟩ marks.reduceOption m
  sane : Sane (layout root) c.world
  founded : Founded root l c.world
  accounted : Accounted (stage tr) c.world
  secured : Secured root A s l marks.reduceOption (stage tr) c.world

theorem Secure.step (hl : Structural l) (h : Secure root l A s tr c marks m) {ev : Event SysReply}
    (htidy : Tidy (layout root) ev.effect)
    (hallow : discipline.allows (stage tr ev.call) ev.effect) (hs : Step (Env True) c ev c') :
    ∃ mark m', Secure root l A s (tr ++ [ev]) c' (marks ++ [mark]) m' := by
  obtain ⟨mark,m',hrel,hsh,hown,hstep,hguar,-⟩ :=
    h.related.advance (fun _ _ _ _ _ _ hq => hq.1) hs
  have henv : Env True c.world ⟨ev.call,ev.effect,ev.reply⟩ c'.world := hs.world
  have hshape := env_reshaped (layout_spaced root) h.sane htidy henv
  have hT : (marks ++ [mark]).reduceOption = marks.reduceOption ++ mark.toList := by
    rw [List.reduceOption_append]
    cases mark <;> rfl
  have hrun : Run shaky.Env ⟨s,A⟩ (marks.reduceOption ++ mark.toList) m' :=
    Run.append_iff.mpr ⟨m,h.run,hstep⟩
  refine ⟨mark,m',hrel,⟨?_,?_⟩,hT ▸ hrun,hshape.sane (layout_spaced root) h.sane,
    hshape.founded hl h.sane h.founded,
    h.accounted.step henv hallow (stage_snoc tr ev) (stage_snoc_other tr ev),?_⟩
  · exact List.rel_append h.marked.shown (.cons hsh .nil)
  · exact List.rel_append h.marked.own (.cons hown .nil)
  · by_cases hc : ∃ a ∈ mark, Confirms l a
    · obtain ⟨a,ha,hc⟩ := hc
      obtain rfl := Option.mem_def.mp ha
      have hx := confirms_shown hc (hsh a rfl)
      obtain ⟨i,e,r⟩ := ev
      obtain ⟨rfl,hr⟩ := Sigma.mk.inj hx
      obtain rfl := eq_of_heq hr
      have hemit : Run shaky.Env m ([] ++ [a]) m' := hstep
      obtain ⟨n,hn,hlast⟩ := Run.snoc_iff.mp hemit
      obtain rfl := Run.nil_iff.mp hn
      exact .confirmed h.accounted hl hguar hallow henv (stage_snoc tr _)
        (confirms_changes hc hlast.world h.related.inv.issued)
    · rw [hT]
      refine h.secured.step hl h.accounted h.related.inv hrel.inv hguar henv (hshape.touched hl) hallow
        (stage_snoc tr ev) (stage_snoc_other tr ev) ⟨m',hrun,rfl⟩ (fun a ha hca => hc ⟨a,?_,hca⟩)
      exact Option.mem_toList.mp ha

theorem Secure.extend (hl : Structural l) (hA : ∀ i, OnStructures (A i))
    (hr : Run (Env True) ⟨d,fun i => perform ⟨root⟩ (A i)⟩ tr c)
    (h : Secure root l A s tr c marks m) (hr' : Run (Env True) c tr' c') :
    ∃ marks' m', Secure root l A s (tr ++ tr') c' (marks ++ marks') m' := by
  induction hr' with
  | nil => exact ⟨[],m,by simpa using h⟩
  | @snoc tr' ev n c' hn hs ih =>
      obtain ⟨marks',m',h'⟩ := ih
      have hrun : Run (Env True) ⟨d,fun i => perform ⟨root⟩ (A i)⟩ (tr ++ tr') n :=
        Run.append_iff.mpr ⟨c,hr,hn⟩
      obtain ⟨next,hp,-⟩ := hs.caller
      have hobeys := run_obeys hrun ev.call
      have htidy :=
        (hrun.only (P := fun _ => Tidy (layout root)) (fun i => perform_tidy (hA i))).2 ev.call
      rw [hp] at hobeys htidy
      obtain ⟨mark,m'',h''⟩ := h'.step hl htidy.1 hobeys.1 hs
      refine ⟨marks' ++ [mark],m'',?_⟩
      rw [← List.append_assoc,← List.append_assoc]
      exact h''

structure Firm (root : Path) (l : Location) (o : Option Object) (d : Disk) : Prop where
  inv : ∃ s, Inv (hazards root) d s
  sane : Sane (layout root) d
  free : ∀ ino, d.locks ino = []
  founded : Founded root l d
  object : ∀ n ∈ d.kept ((layout root).object l).path, Stands d l o n

variable {o : Option Object}

theorem Firm.secure (hd : Firm root l o d) (hl : Structural l) (hA : ∀ i, OnStructures (A i))
    (ho : ∀ i, Oblivious (A i)) :
    ∃ s, shaky.objects s l = o ∧ Ideal.State.Issued s ∧
      Secure root l A s [] ⟨d,fun i => perform ⟨root⟩ (A i)⟩ [] ⟨s,A⟩ := by
  obtain ⟨s,hinv⟩ := hd.inv
  have hobject : s.objects l = o := by
    have hfree : ∀ i, ¬ d.Holds (lockPath root l) i .exclusive := by
      rintro i ⟨ino,-,hm⟩
      simp [hd.free] at hm
    exact (hinv.stands hl hfree).unique (hd.object _ (hinv.tree.current _))
  refine ⟨s,hobject,hinv.issued,
    ⟨⟨hinv,fun i => .inl ⟨At (Free i) (A i),(keeps_free i).stable _,⟨rfl,?_⟩,?_⟩⟩,⟨.nil,.nil⟩,.nil,
      hd.sane,hd.founded,?_,fun n hn => .inl ⟨[],[],⟨s,A⟩,rfl,.nil,?_,by simp⟩⟩⟩
  · intro ino mode hm
    simp [hd.free] at hm
  · exact perform_triple (hazards_sound root) ((hA i).hazards root) (fun _ => ho i)
  · intro j mode ino hm
    simp [hd.free] at hm
  · change Stands d l (s.objects l) n
    rw [hobject]
    exact hd.object n hn

theorem release {p : Fs α} {j ino : ℕ}
    (hp : discipline.Obeys (fun _ s => s = .idle) p (.renamed ino)) (hc : c.calls j = p) :
    ∃ tr' c', Run (Env True) c tr' c' ∧ (∀ ev ∈ tr', ev.call = j) ∧
      c'.world = c.world.unlock j ino := by
  induction p generalizing c with
  | done a => simp [Protocol.Obeys] at hp
  | perform e next ih =>
      obtain ⟨hallow,hnext⟩ := hp
      have hfail : ∀ r, e.failure = some r → discipline.next (.renamed ino) e r = .renamed ino →
          ∃ tr' c', Run (Env True) c tr' c' ∧ (∀ ev ∈ tr', ev.call = j) ∧
            c'.world = c.world.unlock j ino := by
        intro r hr hstays
        obtain ⟨tr',c',hrun,hown,hworld⟩ := ih r (hstays ▸ hnext r)
          (c := ⟨c.world,Function.update c.calls j (next r)⟩) (Function.update_self ..)
        refine ⟨⟨j,e,r⟩ :: tr',c',hrun.cons (.perform hc (.fault trivial hr)),?_,hworld⟩
        exact List.forall_mem_cons.mpr ⟨rfl,hown⟩
      cases e with
      | openDir p | syncDir p | removeFile p => exact hfail _ rfl rfl
      | unlock k =>
          obtain rfl : k = ino := hallow
          refine ⟨[⟨j,.unlock k,()⟩],_,.snoc .nil (.perform hc (.exec rfl)),by simp,rfl⟩
      | _ => exact hallow.elim

theorem run_renamed {j ino : ℕ} (hr : Run (Env True) ⟨d,fun i => perform ⟨root⟩ (A i)⟩ tr c)
    (hs : stage tr j = .renamed ino) :
    Trace.of j tr ≠ [] ∧ ∃ e next, c.calls j = .perform e next := by
  constructor
  · intro hnil
    simp [stage,hnil] at hs
  · have hobeys := run_obeys hr j
    cases hcall : c.calls j with
    | perform e next => exact ⟨e,next,rfl⟩
    | done a =>
        rw [hcall,hs] at hobeys
        simp [Protocol.Obeys] at hobeys

theorem Secure.found (hl : Structural l) (hA : ∀ i, OnStructures (A i))
    (hr : Run (Env True) ⟨d,fun i => perform ⟨root⟩ (A i)⟩ tr c)
    (h : Secure root l A s tr c marks m) {n : Option Node}
    (hn : n ∈ c.world.kept ((layout root).object l).path) :
    ∃ tr' c' marks' m', Run (Env True) c tr' c' ∧ (∀ ev ∈ tr', Trace.of ev.call tr ≠ []) ∧
      Secure root l A s (tr ++ tr') c' (marks ++ marks') m' ∧
      Backed A s l (marks ++ marks').reduceOption c.world n := by
  rcases h.secured n hn with hb | ⟨-,j,ino,hf,hm,hs⟩
  · exact ⟨[],c,[],m,.nil,by simp,by simpa using h,by simpa using hb⟩
  · have hobeys := run_obeys hr j
    rw [hs] at hobeys
    obtain ⟨tr',c',hrun,hown,hworld⟩ := release hobeys rfl
    obtain ⟨marks',m',h'⟩ := h.extend hl hA hr hrun
    refine ⟨tr',c',marks',m',hrun,fun ev hev => ?_,h',?_⟩
    · rw [hown ev hev]
      exact (run_renamed hr hs).1
    · have hkept : n ∈ c'.world.kept ((layout root).object l).path := by
        rw [hworld]
        exact hn
      rcases h'.secured n hkept with ⟨T₁,T₂,m₁,hT,hr₁,hstands,hnone⟩ | ⟨-,k,ino',hf',hm',-⟩
      · refine ⟨T₁,T₂,m₁,hT,hr₁,hstands.congr (fun ino _ => ?_),hnone⟩
        rw [hworld]
        rfl
      · -- the lock has been given back
        rw [hworld] at hf' hm'
        obtain rfl := Node.file.inj (Option.some.inj (hf.symm.trans hf'))
        obtain ⟨hm',hne⟩ := Disk.mem_unlock.mp hm'
        rw [h.related.inv.exclusive ino j hm,List.mem_singleton] at hm'
        exact absurd (Prod.mk.inj hm').1 (hne rfl)

theorem Secure.mirrored (h : Secure root l A s tr c marks m) (hi : Ideal.State.Issued s) :
    Mirrored shaky l A tr c s marks.reduceOption m := by
  refine ⟨h.run,?_,⟨marks,h.marked.own,rfl⟩,fun i a ha => ?_⟩
  · have hnodup := Ideal.held_nodup h.run hi l
    intro x hx y hy hv
    rw [List.inj_on_of_nodup_map hnodup hx hy hv]
  · rcases h.related.calls i with ⟨P,-,hp,ht⟩ | ⟨a',ha',hq⟩
    · rw [ha] at ht
      exact (ht _ _ _ h.related.inv hp).1
    · rw [ha] at ha'
      rw [hq,Program.done.inj ha']

theorem Inv.backed_crash {w : Ideal.State} {n : Option Node} (hi : Inv (Filesystem.hazards root) d w)
    (hl : Structural l) (hn : n ∈ d.kept ((layout root).object l).path) (hcrash : Crash d d₂)
    {o : Option Object} (h : Stands d l o n) : Stands d₂ l o n := by
  refine h.congr (fun ino hino => ?_)
  subst hino
  exact hcrash.data (hi.possible l hl _ hn).1

theorem Firm.found (hd : Firm root l o d) (hl : Structural l) (hA : ∀ i, OnStructures (A i))
    (ho : ∀ i, Oblivious (A i)) (hr : Run (Env True) ⟨d,fun i => perform ⟨root⟩ (A i)⟩ tr c)
    (hcrash : Crash c.world d₂) (k : ℕ) :
    ∃ s tr' c' T₁ T₂ m₁ m' d₃, shaky.objects s l = o ∧ Run (Env True) c tr' c' ∧
      Mirrored shaky l A (tr ++ tr') c s (T₁ ++ T₂) m' ∧
      (∀ ev ∈ tr', Trace.of ev.call tr ≠ []) ∧ (issued (T₁ ++ T₂)).Nodup ∧
      Run shaky.Env ⟨s,A⟩ T₁ m₁ ∧ (∀ a ∈ T₂, ¬ Confirms l a) ∧
      runAlone k (reopen root l).run d₂ = some (.ok (.ok (shaky.objects m₁.world l)),d₃) := by
  obtain ⟨s,hobject,hissued,hstart⟩ := hd.secure hl hA ho
  obtain ⟨marks,m,h⟩ := hstart.extend hl hA .nil hr
  rw [List.nil_append,List.nil_append] at h
  obtain ⟨name,hname,-⟩ := Setting.object_split (K := layout root) ((layout_sound root).accepted l hl)
  have hn : d₂.entries ((layout root).object l).path ∈ c.world.kept ((layout root).object l).path := by
    refine hcrash.entry_firm (fun q hq => ?_)
    obtain ⟨hne,t,ht,he⟩ := mem_ancestors.mp hq
    exact h.founded q hne (prefix_of_split (hname.symm.trans he) ht)
  obtain ⟨tr',c',marks',m',hrun,hown,h',T₁,T₂,m₁,hT,hr₁,hstands,hnone⟩ := h.found hl hA hr hn
  have hall : Run (Env True) ⟨d,fun i => perform ⟨root⟩ (A i)⟩ (tr ++ tr') c' :=
    Run.append_iff.mpr ⟨c,hr,hrun⟩
  have hstands₂ := h.related.inv.backed_crash hl hn hcrash hstands
  obtain ⟨d₃,hget⟩ := (h.sane.legible_crash hl hcrash hstands₂).reopen (layout_regular hl) (i := k)
  have hm := h'.mirrored hissued
  have hfresh := (issued_sublist (drawing_shown h'.marked.shown)).nodup (run_draws hall).1
  rw [hT] at hm hfresh
  exact ⟨s,tr',c',T₁,T₂,m₁,m',d₃,hobject,hrun,
    ⟨hm.run,hm.coherent,hm.marked,fun i a ha => hm.done i a (hrun.done_stays ha)⟩,hown,hfresh,hr₁,
    hnone,hget⟩

end Runs

end Filesystem

end Objsds
