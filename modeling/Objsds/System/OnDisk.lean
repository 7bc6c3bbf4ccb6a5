import Objsds.Filesystem.Liveness
import Objsds.Filesystem.Survival
import Objsds.System.LostRaces
import Objsds.System.Mirrored

namespace Objsds

open Foundation

namespace Filesystem

open FilesystemStore

section Draws

variable {α : Type} {faults : Prop} {c c' : Config Disk SysReply α} {tr : Trace SysReply}

def drawing (ev : Event SysReply) : Option Uuid :=
  match ev with
  | ⟨_,.nowV7,id⟩ => some id
  | _ => none

theorem env_drawing {d d' : Disk} {ev : Event SysReply} {id : Uuid} (h : Env faults d ev d')
    (hid : drawing ev = some id) : d.drawn id = none ∧ d'.drawn id ≠ none := by
  cases h with
  | @exec _ i e r he =>
      cases e with
      | nowV7 => simp [Disk.exec] at he
      | _ => simp [drawing] at hid
  | nowMillis => simp [drawing] at hid
  | nowV7 i id' hfree =>
      obtain rfl := Option.some.inj hid
      exact ⟨hfree,by simp [Disk.draw]⟩
  | @fault i e r _ hr =>
      cases e with
      | nowV7 => simp [Sys.failure] at hr
      | _ => simp [drawing] at hid
  | shortWrite => simp [drawing] at hid

theorem run_draws (h : Run (Env faults) c tr c') : (tr.filterMap drawing).Nodup ∧
    ∀ id ∈ tr.filterMap drawing, c'.world.drawn id ≠ none := by
  induction h with
  | nil => simp
  | @snoc tr ev m c' _ hs ih =>
      obtain ⟨hnodup,hdrawn⟩ := ih
      have hkept : ∀ id ∈ tr.filterMap drawing, c'.world.drawn id ≠ none :=
        fun id hid => (env_framed hs.world).drawn id (hdrawn id hid)
      rw [List.filterMap_append]
      cases hev : drawing ev with
      | none =>
          rw [List.filterMap_cons_none hev,List.filterMap_nil,List.append_nil]
          exact ⟨hnodup,hkept⟩
      | some id =>
          obtain ⟨hfree,hnew⟩ := env_drawing hs.world hev
          simp only [List.filterMap_cons,hev,List.filterMap_nil]
          constructor
          · refine List.nodup_append.mpr ⟨hnodup,by simp,fun x hx y hy => ?_⟩
            rw [List.mem_singleton.mp hy]
            rintro rfl
            exact hdrawn x hx hfree
          · intro x hx
            rcases List.mem_append.mp hx with hx | hx
            · exact hkept x hx
            · rwa [List.mem_singleton.mp hx]

variable {K : Setting} {marks : List (Option (Event (Reply StoreError)))}

theorem drawing_shown (h : List.Forall₂ (simulation K).shows tr marks) :
    List.Forall₂ (fun ev mark => ∀ a ∈ mark, ∀ id, identifier a.answer = some id →
      drawing ev = some id) tr marks := by
  refine h.imp (fun ev mark hshow a ha id hid => ?_)
  obtain ⟨i,e,r⟩ := a
  cases e with
  | nowV7 =>
      have hev : ev.answer = ⟨.nowV7,r⟩ := hshow _ ha
      obtain ⟨j,e,r'⟩ := ev
      obtain ⟨rfl,hr⟩ := Sigma.mk.inj hev
      obtain rfl := eq_of_heq hr
      exact hid
  | store q => simp [identifier,Event.answer] at hid
  | nowMillis => simp [identifier,Event.answer] at hid

end Draws

section Past

variable {root : Path} {d : Disk} {s : Ideal.State}

def hazards (root : Path) : Setting := { layout root with faults := True, lax := True }

theorem hazards_sound (root : Path) : (hazards root).Sound where
  accepted := (layout_sound root).accepted
  separate := (layout_sound root).separate
  notLock := (layout_sound root).notLock
  notTemporary := (layout_sound root).notTemporary
  decodes := (layout_sound root).decodes
  blankDir := (layout_sound root).blankDir
  strict := fun hx => absurd trivial hx
  reliable := id

theorem Inv.hazards (h : Inv (layout root) d s) : Inv (hazards root) d s where
  tree := by
    have ht := h.tree
    exact ⟨ht.wf,ht.rootDir,ht.locksDir,ht.clearObject,ht.clearLock,ht.current,ht.bounded,ht.ownLock,
      ht.locksKept,fun hx => absurd trivial hx,fun hx => absurd trivial hx,
      fun hx => absurd trivial hx⟩
  idle := h.idle
  exclusive := h.exclusive
  old := h.old
  used := h.used
  issued := h.issued
  possible := h.possible
  settled := h.settled

theorem OnStructures.hazards {α : Type} {A : Action StoreError α} (root : Path)
    (h : OnStructures A) : (hazards root).Serves A :=
  OnStructures.serves root h

-- What earlier calls have left behind, whatever went wrong with them.
structure Legacy (root : Path) (d : Disk) : Prop where
  past : ∃ (α : Type) (A : ℕ → Action StoreError α) (d₀ : Disk) (tr : Trace SysReply)
    (c : Config Disk SysReply α), Pristine root d₀ ∧ (∀ i, OnStructures (A i)) ∧
      (∀ i, Oblivious (A i)) ∧ Run (Env True) ⟨d₀,fun i => perform ⟨root⟩ (A i)⟩ tr c ∧ c.world = d
  free : ∀ ino, d.locks ino = []

theorem Legacy.inv (h : Legacy root d) : ∃ s, Inv (Filesystem.hazards root) d s := by
  obtain ⟨α,A,d₀,tr,c,hd,hA,ho,hr,rfl⟩ := h.past
  obtain ⟨marks,m',-,-,hinv,-⟩ := pool_refines (K := Filesystem.hazards root) (hazards_sound root)
    hd.inv.hazards hd.locks (fun i => (hA i).hazards root) (fun _ i => ho i) hr
  exact ⟨_,hinv⟩

theorem Setting.Shows.unique {K : Setting} {l : Location} {o o' : Option Object}
    (h : K.Shows d l o) (h' : K.Shows d l o') : o = o' := by
  cases o with
  | none =>
      cases o' with
      | none => rfl
      | some o' =>
          obtain ⟨ino,hv,-⟩ := h'
          have h : d.visible (K.object l) = none := h
          simp [h] at hv
  | some o =>
      obtain ⟨ino,hv,hd⟩ := h
      cases o' with
      | none =>
          have h' : d.visible (K.object l) = none := h'
          simp [h'] at hv
      | some o' =>
          obtain ⟨ino',hv',hd'⟩ := h'
          obtain rfl := Option.some.inj (hv.symm.trans hv')
          rw [Except.ok.inj (hd.symm.trans hd')]

abbrev shaky : ObjectStore StoreError := Ideal.store StoreError True

theorem Legacy.mirrored {α : Type} {A : ℕ → Action StoreError α} {tr : Trace SysReply}
    {c : Config Disk SysReply α} {l : Location} {o : Option Object} (hd : Legacy root d)
    (hl : Structural l) (hshow : (layout root).Shows d l o) (hA : ∀ i, OnStructures (A i))
    (ho : ∀ i, Oblivious (A i)) (hr : Run (Env True) ⟨d,fun i => perform ⟨root⟩ (A i)⟩ tr c) :
    ∃ s T m, shaky.objects s l = o ∧ Mirrored shaky l A tr c s T m ∧ (issued T).Nodup ∧
      ((∀ i, ¬ c.world.Holds (lockPath root l) i .exclusive) →
        (layout root).Shows c.world l (shaky.objects m.world l)) := by
  obtain ⟨s,hinv⟩ := hd.inv
  obtain ⟨marks,m,hmarks,hrun,hinv',hdone⟩ := pool_refines (K := Filesystem.hazards root)
    (hazards_sound root) hinv hd.free (fun i => (hA i).hazards root) (fun _ i => ho i) hr
  have hobject : s.objects l = o := by
    have hfree : ∀ i, ¬ d.Holds ((Filesystem.hazards root).lock l) i .exclusive := by
      rintro i ⟨ino,-,hm⟩
      simp [hd.free] at hm
    exact Setting.Shows.unique (K := layout root) (hinv.settled l hl hfree) hshow
  refine ⟨s,marks.reduceOption,m,hobject,⟨hrun,?_,⟨marks,hmarks.own,rfl⟩,hdone⟩,
    (issued_sublist (drawing_shown hmarks.shown)).nodup (run_draws hr).1,
    fun hfree => hinv'.settled l hl hfree⟩
  have hnodup := Ideal.held_nodup hrun hinv.issued l
  intro x hx y hy hv
  rw [List.inj_on_of_nodup_map hnodup hx hy hv]

end Past

section Structures

variable {D Err α : Type}

theorem procedure_onStructures (m : Medium D Err StoreError) (hl : Structural m.location)
    (p : Procedure D Err α) : OnStructures (p.program m) := by
  refine (Procedure.program_only m p).mono (fun e he rq hrq => ?_)
  rw [he rq.location (by rw [hrq]; cases rq <;> rfl)]
  exact hl

end Structures

section Stocked

variable {l : Location} {b : Bytes} {d : Disk}

theorem perform_tidy {α : Type} {root : Path} {p : Action StoreError α} (hp : OnStructures p) :
    (perform ⟨root⟩ p).Only (Tidy (layout root)) := by
  induction p with
  | done a => trivial
  | perform e next ih =>
      cases e with
      | store q =>
          have hq : Structural q.location := hp.1 q rfl
          exact (serve_tidy ((layout_sound root).accepted _ hq) hq).bind (fun r => ih r (hp.2 r))
      | nowMillis | nowV7 => exact ⟨trivial,fun r => ih r (hp.2 r)⟩

theorem ask_onStructures {q : Request} (h : Structural q.location) : OnStructures (ask q) := by
  refine ⟨?_,fun _ => trivial⟩
  rintro rq he
  obtain rfl := Effect.store.inj he
  exact h

theorem creates_run {T : Trace (Reply StoreError)}
    {m : Config (Ideal.store StoreError False).State (Reply StoreError) Outcome}
    (hr : Run (Ideal.store StoreError False).Env ⟨vacant,fun _ => ask (.create l b)⟩ T m) :
    (m.world.objects l = none ∧ ∀ i, m.calls i = ask (.create l b)) ∨
      ∃ v, m.world.objects l = some ⟨b,v⟩ := by
  induction hr with
  | nil => exact .inl ⟨rfl,fun _ => rfl⟩
  | @snoc T a n m hr hs ih =>
      let rq : ℕ → Request := fun _ => .create l b
      have hr : Run (Ideal.store StoreError False).Env ⟨vacant,fun i => ask (rq i)⟩ T n := hr
      obtain ⟨j,r,rfl,hstep,-,-⟩ := asked_step hr hs
      refine .inr ?_
      rcases ih with ⟨ha,-⟩ | ⟨v,hv⟩
      · obtain ⟨v,rfl,hput⟩ := create_absent hstep ha
        rw [hput]
        exact ⟨v,Objects.put_self ..⟩
      · generalize m.world = s' at hstep
        cases hstep with
        | alreadyExists => exact ⟨v,hv⟩
        | created _ _ _ ha => simp [hv] at ha
        | createFailed _ _ _ hx => exact hx.elim
        | createUncertain _ _ _ _ _ _ hx => exact hx.elim

theorem ask_draws (q : Request) : (ask q).Within draws 3 := by
  cases q with
  | get l => exact ⟨3,rfl,fun _ => trivial⟩
  | create l b | replace l x b => exact ⟨1,rfl,fun _ => trivial⟩

theorem stocked_of_run {tr : Trace SysReply} {c : Config Disk SysReply Outcome} {o : Outcome}
    (hl : Structural l)
    (hr : Run (Env False) ⟨emptyRoot,fun _ => FilesystemStore.perform ⟨[]⟩ (ask (.create l b))⟩ tr c)
    (hown : ∀ ev ∈ tr, ev.call < 1) (hdone : c.calls 0 = .done o) :
    ∃ v, Legacy [] c.world ∧ Sane (layout []) c.world ∧
      (layout []).Shows c.world l (some ⟨b,v⟩) := by
  have hids : ∃ unused : Finset Uuid, (∀ id ∈ unused, emptyRoot.drawn id = none) ∧
      3 * 1 ≤ unused.card :=
    ⟨{0,1,2},fun id _ => emptyRoot_pristine.drawn id,by decide⟩
  obtain ⟨σ,hlive⟩ := actions_live (fun _ => ask_draws (.create l b)) emptyRoot_pristine.locks hids hr
    hown
  have hlocks := hlive.unlocked_of_done (fun i hi => ⟨o,by rw [Nat.lt_one_iff.mp hi,hdone]⟩)
  obtain ⟨marks,m,-,hm,hinv,hends⟩ := pool_refines (K := layout []) (layout_sound [])
    emptyRoot_pristine.inv emptyRoot_pristine.locks
    (fun _ => (ask_onStructures (q := .create l b) hl).serves []) (fun hf => hf.elim) hr
  obtain ⟨v,hv⟩ : ∃ v, m.world.objects l = some ⟨b,v⟩ := by
    rcases creates_run hm with ⟨-,hask⟩ | hv
    · have := (hask 0).symm.trans (hends 0 o hdone)
      simp [ask] at this
    · exact hv
  refine ⟨v,⟨⟨_,_,_,tr,_,emptyRoot_pristine,fun _ => ask_onStructures (q := .create l b) hl,?_,
    hr.mono Env.faulty,rfl⟩,hlocks⟩,?_,?_⟩
  · exact fun _ => ⟨fun _ _ => rfl,fun _ => trivial⟩
  · exact sane_run (layout_spaced []) hr emptyRoot_sane
      (fun _ => perform_tidy (ask_onStructures (q := .create l b) hl))
  · rw [← hv]
    refine hinv.settled l hl ?_
    rintro i ⟨ino,-,hm⟩
    simp [hlocks] at hm

-- An object is created below an empty root, and the calls take their turns at what that leaves.
def staged {α : Type} (l : Location) (settle : Disk → Disk) (turns : List (ℕ × ℕ)) (ids : List Uuid)
    (calls : ℕ → Fs α) (good : Config Disk SysReply α → Bool) (b : Bytes) : Bool :=
  plays Script.answer Script.disk [(0,40)]
    ⟨⟨[0,1],emptyRoot⟩,fun _ => FilesystemStore.perform ⟨[]⟩ (ask (.create l b))⟩ (fun tr c =>
      ended (fun _ => true) (c.calls 0) && tr.all (fun ev => ev.call < 1) &&
        plays Script.answer Script.disk turns ⟨⟨ids,settle c.world⟩,calls⟩ (fun _ c => good c))

theorem exists_staged {α : Type} {settle : Disk → Disk} {turns : List (ℕ × ℕ)} {ids : List Uuid}
    {calls : ℕ → Fs α} {good : Config Disk SysReply α → Bool} {bytes : Option Bytes}
    (hl : Structural l) (h : bytes.any (staged l settle turns ids calls good) = true) :
    ∃ b v d tr c, bytes = some b ∧ Legacy [] d ∧ Sane (layout []) d ∧
      (layout []).Shows d l (some ⟨b,v⟩) ∧ Run (Env True) ⟨settle d,calls⟩ tr c ∧
      good c = true := by
  obtain ⟨b,hb,hstaged⟩ := (Option.any_eq_true ..).mp h
  obtain ⟨tr₀,c₀,hr₀,hgo⟩ := Script.run hstaged
  simp only [Bool.and_eq_true,ended_iff,decide_eq_true_eq,List.all_eq_true] at hgo
  obtain ⟨⟨⟨o,hdone,-⟩,hfirst⟩,hturns⟩ := hgo
  obtain ⟨tr,c,hr,hgood⟩ := Script.run hturns
  obtain ⟨v,hlegacy,hsane,hshow⟩ := stocked_of_run hl hr₀ hfirst hdone
  exact ⟨b,v,c₀.world,tr,c,hb,hlegacy,hsane,hshow,hr.mono Env.faulty,hgood⟩

def unlocked (l : Location) (d : Disk) : Bool :=
  d.entries (lockPath [] l) = some (.file 0) ∧ d.locks 0 = []

theorem not_holds_of_unlocked (h : unlocked l d = true) (i : ℕ) :
    ¬ d.Holds (lockPath [] l) i .exclusive := by
  rintro ⟨ino,hino,hm⟩
  obtain ⟨hfile,hlocks⟩ : d.entries (lockPath [] l) = some (.file 0) ∧ d.locks 0 = [] := by
    simpa [unlocked] using h
  rw [hfile,Option.some.injEq,Node.file.injEq] at hino
  subst hino
  simp [hlocks] at hm

end Stocked

end Filesystem

open Filesystem

namespace Queue

variable {V : Type} {root : Filesystem.Path} {d : Disk} {queue : Queue V} {ops : ℕ → Op V}
  {tr : Trace SysReply} {c : Config Disk SysReply (Except (Error StoreError) (Outcome V))}

theorem perform_onStructures (hl : Structural queue.location) (op : Op V) :
    OnStructures (queue.perform (ε := StoreError) op) := by
  rw [perform_eq]
  exact procedure_onStructures queue.medium hl _

-- While no writer holds the lock, whatever failed, the file tells what became of every message.
theorem queue_kept_on_disk {o₀ : Object} (hrt : queue.codec.RoundTrips 3)
    (hl : Structural queue.location) (hd : Legacy root d)
    (hshow : (layout root).Shows d queue.location (some o₀))
    (hempty : queue.emptyBytes (ε := StoreError) = .ok o₀.bytes)
    (hr : Run (Env True) ⟨d,fun i => FilesystemStore.perform ⟨root⟩ (queue.perform (ops i))⟩ tr c)
    (hfree : ∀ i, ¬ c.world.Holds (lockPath root queue.location) i .exclusive) :
    ∃ o doc, (layout root).Shows c.world queue.location (some o) ∧
      queue.decode (ε := StoreError) o.bytes = .ok doc ∧ Kept ops tr c doc.messages := by
  obtain ⟨s,T,m,hs,hm,hfresh,hshown⟩ := hd.mirrored hl hshow (fun i => perform_onStructures hl (ops i))
    (fun i => perform_oblivious (ops i)) hr
  obtain ⟨o,doc,hobj,hdec,hkept⟩ := mirrored_kept hrt hs hempty hm hfresh
  exact ⟨o,doc,hobj ▸ hshown hfree,hdec,hkept⟩

def publishing (i : ℕ) : Op String := .publish (if i = 0 then "a" else "b")

def told (id : MessageId) : Except (Error StoreError) (Outcome String) → Bool
  | .ok (.published id') => id' = id
  | _ => false

theorem told_iff {id : MessageId} {r : Except (Error StoreError) (Outcome String)} :
    told id r = true ↔ r = .ok (.published id) := by
  match r with
  | .ok (.published id') => simp [told]
  | .ok (.claimed _) | .ok (.ack _) | .ok (.len _) | .ok (.isEmpty _) | .error _ => simp [told]

theorem told_publishes_kept : ∃ d tr c o doc, Legacy [] d ∧
    Run (Env True) ⟨d,fun i => FilesystemStore.perform ⟨[]⟩ (jobs.perform (publishing i))⟩ tr c ∧
    c.calls 0 = .done (.ok (.published 2)) ∧ c.calls 1 = .done (.ok (.published 5)) ∧
    (layout []).Shows c.world jobs.location (some o) ∧
    jobs.decode (ε := StoreError) o.bytes = .ok doc ∧
    (∃ message ∈ doc.messages, message.id = 2 ∧ message.value = "a") ∧
    ∃ message ∈ doc.messages, message.id = 5 ∧ message.value = "b" := by
  have hl : Structural jobs.location := ⟨"shop","queues","jobs",by decide,rfl⟩
  have hplay : (jobs.emptyBytes (ε := StoreError)).toOption.any (staged jobs.location id
      [(0,40),(1,40)] [2,3,4,5,6,7]
      (fun i => FilesystemStore.perform ⟨[]⟩ (jobs.perform (publishing i)))
      (fun c => ended (told 2) (c.calls 0) && ended (told 5) (c.calls 1) &&
        unlocked jobs.location c.world)) = true := by
    decide +kernel
  obtain ⟨b,v,d,tr,c,hb,hd,-,hshow,hr,hgood⟩ := exists_staged hl hplay
  simp only [Bool.and_eq_true,ended_iff,told_iff] at hgood
  obtain ⟨⟨⟨_,h0,rfl⟩,⟨_,h1,rfl⟩⟩,hunlocked⟩ := hgood
  have hrt : jobs.codec.RoundTrips 3 := textCodec_roundTrips (by decide)
  obtain ⟨o,doc,hshow',hdec,hkept⟩ := queue_kept_on_disk hrt hl hd hshow
    (except_toOption_eq_some.mp hb) hr (not_holds_of_unlocked hunlocked)
  refine ⟨d,tr,c,o,doc,hd,hr,h0,h1,hshow',hdec,?_,?_⟩
  · simpa [publishing] using hkept.retained 0 2 "a" rfl h0
  · simpa [publishing] using hkept.retained 1 5 "b" rfl h1

end Queue

namespace Log

variable {V : Type} {root : Filesystem.Path} {d : Disk} {log : Log V} {ops : ℕ → Op V}
  {tr : Trace SysReply} {c : Config Disk SysReply (Except (Error StoreError) (Outcome V))}

theorem perform_onStructures (hl : Structural log.location) (op : Op V) :
    OnStructures (log.perform (ε := StoreError) op) := by
  rw [perform_eq]
  exact procedure_onStructures log.medium hl _

-- While no writer holds the lock, the log holds every record appended and none but those.
theorem log_kept_on_disk {o₀ : Object} (hrt : log.codec.RoundTrips 3)
    (hl : Structural log.location) (hd : Legacy root d)
    (hshow : (layout root).Shows d log.location (some o₀))
    (hempty : log.emptyBytes (ε := StoreError) = .ok o₀.bytes)
    (hr : Run (Env True) ⟨d,fun i => FilesystemStore.perform ⟨root⟩ (log.perform (ops i))⟩ tr c)
    (hfree : ∀ i, ¬ c.world.Holds (lockPath root log.location) i .exclusive) :
    ∃ o doc, (layout root).Shows c.world log.location (some o) ∧
      log.decode (ε := StoreError) o.bytes = .ok doc ∧ Kept ops tr c doc.records := by
  obtain ⟨s,T,m,hs,hm,hfresh,hshown⟩ := hd.mirrored hl hshow (fun i => perform_onStructures hl (ops i))
    (fun i => perform_oblivious (ops i)) hr
  obtain ⟨o,doc,hobj,hdec,hkept⟩ := mirrored_kept hrt hs hempty hm hfresh
  exact ⟨o,doc,hobj ▸ hshown hfree,hdec,hkept⟩

def appending (i : ℕ) : Op String := .append (if i = 0 then "a" else "b")

def told (id : LogId) : Except (Error StoreError) (Outcome String) → Bool
  | .ok (.appended id') => id' = id
  | _ => false

theorem told_iff {id : LogId} {r : Except (Error StoreError) (Outcome String)} :
    told id r = true ↔ r = .ok (.appended id) := by
  match r with
  | .ok (.appended id') => simp [told]
  | .ok (.record _) | .ok (.records _) | .error _ => simp [told]

theorem told_appends_kept : ∃ d tr c o doc, Legacy [] d ∧
    Run (Env True) ⟨d,fun i => FilesystemStore.perform ⟨[]⟩ (audit.perform (appending i))⟩ tr c ∧
    c.calls 0 = .done (.ok (.appended 2)) ∧ c.calls 1 = .done (.ok (.appended 5)) ∧
    (layout []).Shows c.world audit.location (some o) ∧
    audit.decode (ε := StoreError) o.bytes = .ok doc ∧
    ⟨2,"a"⟩ ∈ doc.records ∧ ⟨5,"b"⟩ ∈ doc.records := by
  have hl : Structural audit.location := ⟨"shop","logs","audit",by decide,rfl⟩
  have hplay : (audit.emptyBytes (ε := StoreError)).toOption.any (staged audit.location id
      [(0,40),(1,40)] [2,3,4,5,6,7]
      (fun i => FilesystemStore.perform ⟨[]⟩ (audit.perform (appending i)))
      (fun c => ended (told 2) (c.calls 0) && ended (told 5) (c.calls 1) &&
        unlocked audit.location c.world)) = true := by
    decide +kernel
  obtain ⟨b,v,d,tr,c,hb,hd,-,hshow,hr,hgood⟩ := exists_staged hl hplay
  simp only [Bool.and_eq_true,ended_iff,told_iff] at hgood
  obtain ⟨⟨⟨_,h0,rfl⟩,⟨_,h1,rfl⟩⟩,hunlocked⟩ := hgood
  have hrt : audit.codec.RoundTrips 3 := textCodec_roundTrips (by decide)
  obtain ⟨o,doc,hshow',hdec,hkept⟩ := log_kept_on_disk hrt hl hd hshow
    (except_toOption_eq_some.mp hb) hr (not_holds_of_unlocked hunlocked)
  exact ⟨d,tr,c,o,doc,hd,hr,h0,h1,hshow',hdec,hkept.retained 0 2 "a" rfl h0,
    hkept.retained 1 5 "b" rfl h1⟩

end Log

namespace Map

variable {V : Type} {root : Filesystem.Path} {d : Disk} {map : Map V} {ops : ℕ → Op V}
  {tr : Trace SysReply} {c : Config Disk SysReply (Except (Error StoreError) (Outcome V))}

theorem perform_onStructures (hl : Structural map.location) (op : Op V) :
    OnStructures (map.perform (ε := StoreError) op) := by
  rw [perform_eq]
  exact procedure_onStructures map.medium hl _

-- What the disk holds while no writer holds the lock is what the calls that took effect left.
theorem map_linearizable_on_disk {o₀ : Object} {d₀ : OwnedMapDocument V}
    (hrt : map.codec.RoundTrips 2) (hl : Structural map.location) (hd : Legacy root d)
    (hshow : (layout root).Shows d map.location (some o₀))
    (hread : map.decode (ε := StoreError) o₀.bytes = .ok d₀)
    (hr : Run (Env True) ⟨d,fun i => FilesystemStore.perform ⟨root⟩ (map.perform (ops i))⟩ tr c) :
    ∃ out points, Explained d₀.entries ops tr c out points ∧
      ((∀ i, ¬ c.world.Holds (lockPath root map.location) i .exclusive) →
        ∃ o doc, (layout root).Shows c.world map.location (some o) ∧
          map.decode (ε := StoreError) o.bytes = .ok doc ∧
          doc.entries = (replay spec d₀.entries (points.map (fun p => ops p.2))).1) := by
  obtain ⟨s,T,m,hs,hm,-,hshown⟩ := hd.mirrored hl hshow (fun i => perform_onStructures hl (ops i))
    (fun i => perform_oblivious (ops i)) hr
  obtain ⟨out,points,o,doc,hex,hobj,hdec,hentries⟩ := mirrored_explained hrt hs hread hm
  exact ⟨out,points,hex,fun hfree => ⟨o,doc,hobj ▸ hshown hfree,hdec,hentries⟩⟩

def inserted : Except (Error StoreError) (Outcome String) → Bool
  | .ok (.version _) => true
  | _ => false

theorem inserted_iff {r : Except (Error StoreError) (Outcome String)} :
    inserted r = true ↔ ∃ v, r = .ok (.version v) := by
  match r with
  | .ok (.version v) => simp [inserted]
  | .ok (.value _) | .ok (.entries _) | .ok (.insertIfAbsent _) | .ok (.removed _) | .error _ =>
      simp [inserted]

def conflicted : Except (Error StoreError) (Outcome String) → Bool
  | .error (.conflict _ _) => true
  | _ => false

theorem conflicted_inv {r : Except (Error StoreError) (Outcome String)}
    (h : conflicted r = true) : ∃ x y, r = .error (.conflict x y) := by
  match r, h with
  | .error (.conflict x y), _ => exact ⟨x,y,rfl⟩

-- The second insert has read what the first one replaces.
theorem rival_inserts_linearizable : ∃ d tr c out points o doc v x y, Legacy [] d ∧
    Run (Env True) ⟨d,fun _ => FilesystemStore.perform ⟨[]⟩ (orders.perform (.insert "a" "1"))⟩ tr c ∧
    c.calls 0 = .done (.ok (.version v)) ∧ c.calls 1 = .done (.error (.conflict x y)) ∧
    Explained .empty (fun _ => .insert "a" "1") tr c out points ∧
    (layout []).Shows c.world orders.location (some o) ∧
    orders.decode (ε := StoreError) o.bytes = .ok doc ∧
    doc.entries = (replay spec .empty (points.map (fun _ => .insert "a" "1"))).1 := by
  have hl : Structural orders.location := ⟨"shop","maps","orders",by decide,rfl⟩
  have hrt : orders.codec.RoundTrips 2 := textCodec_roundTrips (by decide)
  let empty : OwnedMapDocument String := ⟨⟨Core.FORMAT_VERSION,"map","v1"⟩,.empty⟩
  have hplay : (orders.encode (ε := StoreError) empty).toOption.any (staged orders.location id
      [(1,9),(0,40),(1,40)] [2,3]
      (fun _ => FilesystemStore.perform ⟨[]⟩ (orders.perform (.insert "a" "1")))
      (fun c => ended inserted (c.calls 0) && ended conflicted (c.calls 1) &&
        unlocked orders.location c.world)) = true := by
    decide +kernel
  obtain ⟨b,v,d,tr,c,hb,hd,-,hshow,hr,hgood⟩ := exists_staged hl hplay
  simp only [Bool.and_eq_true,ended_iff,inserted_iff] at hgood
  obtain ⟨⟨⟨_,h0,v',rfl⟩,⟨r,h1,hconf⟩⟩,hunlocked⟩ := hgood
  obtain ⟨x,y,rfl⟩ := conflicted_inv hconf
  have hread : orders.decode (ε := StoreError) b = .ok empty :=
    decode_of_encode hrt (except_toOption_eq_some.mp hb) rfl
  obtain ⟨out,points,hex,hsettled⟩ := map_linearizable_on_disk hrt hl hd hshow hread hr
  obtain ⟨o,doc,hshow',hdec,hentries⟩ := hsettled (not_holds_of_unlocked hunlocked)
  exact ⟨d,tr,c,out,points,o,doc,v',x,y,hd,hr,h0,h1,hex,hshow',hdec,hentries⟩

end Map

end Objsds
