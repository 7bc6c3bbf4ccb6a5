import Objsds.System.Remnants

namespace Objsds

open Foundation

namespace Filesystem

section Flushed

variable {K : Setting} {root : Path} {l : Location} {o : Object} {d : Disk} {s : Ideal.State}

-- The disk once everything written to it has reached it.
def Disk.flush (d : Disk) : Disk :=
  { d with kept := fun p => [d.entries p], synced := fun _ => true }

theorem Disk.flush_kept {p : Path} {n : Option Node} (h : n ∈ d.flush.kept p) : n = d.entries p :=
  List.mem_singleton.mp h

theorem Inv.flush (h : Inv K d s) : Inv K d.flush s where
  tree :=
    { h.tree with
      current := fun _ => List.mem_singleton_self _
      bounded := fun p ino hn => h.tree.bounded p ino (Disk.flush_kept hn ▸ h.tree.current p)
      locksKept := fun ha l hl hn =>
        h.tree.locksKept ha l hl (Disk.flush_kept hn ▸ h.tree.current _) }
  idle := h.idle
  exclusive := h.exclusive
  old := h.old
  used := h.used
  issued := h.issued
  possible := by
    intro l hl n hn
    obtain rfl := Disk.flush_kept hn
    have hp := h.possible l hl _ (h.tree.current _)
    cases he : d.entries (K.object l).path with
    | none => rwa [he] at hp
    | some n =>
        rw [he] at hp
        cases n with
        | file ino => exact ⟨rfl,hp.2⟩
        | dir | link t => exact hp
  settled := h.settled

theorem Sane.flush (h : Sane K d) : Sane K d.flush where
  wf := h.wf
  current := fun _ => List.mem_singleton_self _
  bounded := fun p ino hn => h.bounded p ino (Disk.flush_kept hn ▸ h.current p)
  rootDir := h.rootDir
  locksDir := h.locksDir
  unlinked := fun l hl q hq t hn => h.unlinked l hl q hq t (Disk.flush_kept hn ▸ h.current q)
  ancestors := fun l hl q hne hq ino hn =>
    h.ancestors l hl q hne hq ino (Disk.flush_kept hn ▸ h.current q)
  locksKept := fun ino hn => h.locksKept ino (Disk.flush_kept hn ▸ h.current _)
  lockKept := fun l hl hn => h.lockKept l hl (Disk.flush_kept hn ▸ h.current _)

theorem Legacy.firm (hd : Legacy root d) (hs : Sane (layout root) d) (hl : Structural l)
    (hshow : (layout root).Shows d l (some o)) : Firm root l (some o) d.flush := by
  obtain ⟨s,hinv⟩ := hd.inv
  have hfree : ∀ i, ¬ d.Holds (lockPath root l) i .exclusive := by
    rintro i ⟨ino,-,hm⟩
    simp [hd.free] at hm
  have hobject : s.objects l = some o := (hinv.settled l hl hfree).unique hshow
  have hstands : Stands d l (some o) (d.entries ((layout root).object l).path) := by
    rw [← hobject]
    exact hinv.stands hl hfree
  refine ⟨⟨s,hinv.flush⟩,hs.flush,hd.free,?_,fun n hn => Disk.flush_kept hn ▸ hstands⟩
  intro q hne hq n hn
  obtain rfl := Disk.flush_kept hn
  obtain ⟨name,hname,-⟩ := Setting.object_split (K := layout root)
    ((layout_sound root).accepted l hl)
  obtain ⟨t,ht⟩ := hq
  obtain ⟨-,ino,hfile,-⟩ := hstands
  have hpath : ((layout root).object l).path = q ++ (t ++ [name]) := by
    rw [hname,← List.append_assoc,ht]
    rfl
  rw [hpath] at hfile
  have hbelow : d.entries (q ++ (t ++ [name])) ≠ none := by simp [hfile]
  have hdir : d.node q = some .dir := hs.wf.below (by simp) hbelow
  rwa [Disk.node_of_ne hne] at hdir

theorem Sane.crash_undoing {p : Path} {n : Option Node} (hs : Sane K d) (hn : n ∈ d.kept p)
    (hne : n ≠ d.entries p) (hsome : d.entries p ≠ none) :
    ∃ d₂, Crash d d₂ ∧ d₂.entries p ≠ d.entries p := by
  refine ⟨_,.crash (Function.update d.entries p n) d.data (fun q => ?_),?_⟩
  · by_cases hq : q = p
    · subst hq
      rwa [Function.update_self]
    · rw [Function.update_of_ne hq]
      exact hs.current q
  · simp only [Disk.crash]
    split
    · rwa [Function.update_self]
    · exact hsome.symm

-- The last object renamed into place is not synced yet, and the one before it may come back.
def unsynced (l : Location) (ino : ℕ) (d : Disk) : Bool :=
  some (.file ino) ∈ d.kept (join [] l).path ∧ d.entries (join [] l).path = some (.file (ino + 1))

theorem Sane.crash_unsynced {ino : ℕ} (hs : Sane K d) (h : unsynced l ino d = true) :
    ∃ d₂, Crash d d₂ ∧ d₂.entries (join [] l).path ≠ d.entries (join [] l).path := by
  obtain ⟨hkept,hnow⟩ : some (.file ino) ∈ d.kept (join [] l).path ∧
      d.entries (join [] l).path = some (.file (ino + 1)) := by
    simpa [unsynced] using h
  exact hs.crash_undoing hkept (by simp [hnow]) (by simp [hnow])

-- The object is on the disk for good when the calls begin, and power fails before the last rename
-- is synced, which is lost.
theorem exists_struck {α : Type} {l : Location} {turns : List (ℕ × ℕ)} {ids : List Uuid}
    {A : ℕ → Action StoreError α} {told : α → Bool} {ino : ℕ} {bytes : Option Bytes}
    (hl : Structural l) (hA : ∀ i, OnStructures (A i))
    (h : bytes.any (staged l Disk.flush turns ids (fun i => FilesystemStore.perform ⟨[]⟩ (A i))
      (fun c => ended told (c.calls 0) && unsynced l ino c.world)) = true) :
    ∃ b v d tr c r d₂, bytes = some b ∧ Firm [] l (some ⟨b,v⟩) d ∧
      Run (Env True) ⟨d,fun i => FilesystemStore.perform ⟨[]⟩ (A i)⟩ tr c ∧
      c.calls 0 = .done r ∧ told r = true ∧ Crash c.world d₂ ∧
      d₂.entries (join [] l).path ≠ c.world.entries (join [] l).path := by
  obtain ⟨b,v,d,tr,c,hb,hd,hs,hshow,hr,hgood⟩ := exists_staged hl h
  rw [Bool.and_eq_true,ended_iff] at hgood
  obtain ⟨⟨r,hdone,htold⟩,hunsynced⟩ := hgood
  have hfirm := hd.firm hs hl hshow
  have hsane : Sane (layout []) c.world := sane_run (layout_spaced []) hr hfirm.sane
    (fun i => perform_tidy (hA i))
  obtain ⟨d₂,hcrash,hlost⟩ := hsane.crash_unsynced hunsynced
  exact ⟨b,v,d.flush,tr,c,r,d₂,hb,hfirm,hr,hdone,htold,hcrash,hlost⟩

end Flushed

end Filesystem

section Before

variable {ε E W α Err : Type} {R : E → Type} {storeError : ε → Err} {tr tr' : Trace R}
  {c : Config W R (Except Err α)} {i : ℕ}

theorem Doubtful.before (h : Doubtful storeError (tr ++ tr') c i)
    (hown : ∀ ev ∈ tr', Trace.of ev.call tr ≠ []) : Doubtful storeError tr c i := by
  refine ⟨fun hnil => ?_,h.2⟩
  have hsteps := h.1
  rw [Trace.of_append,hnil,List.nil_append] at hsteps
  obtain ⟨x,hx⟩ := List.exists_mem_of_ne_nil _ hsteps
  obtain ⟨ev,hev,rfl,-⟩ := Trace.mem_of.mp hx
  exact hown ev hev hnil

end Before

open Filesystem

namespace Queue

variable {V : Type} {root : Filesystem.Path} {d d₂ : Disk} {queue : Queue V} {ops : ℕ → Op V}
  {tr tr' : Trace SysReply} {c : Config Disk SysReply (Except (Error StoreError) (Outcome V))}

theorem Kept.before {messages : List (Message V)} (h : Kept ops (tr ++ tr') c messages)
    (hown : ∀ ev ∈ tr', Trace.of ev.call tr ≠ []) : Kept ops tr c messages where
  published := by
    intro message hmem
    obtain ⟨i,hop,hreported⟩ := h.published message hmem
    exact ⟨i,hop,hreported.imp_right (fun hdoubt => hdoubt.before hown)⟩
  retained := by
    intro i id value hop hdone
    refine (h.retained i id value hop hdone).imp_right ?_
    rintro ⟨j,token,hack,hreported⟩
    exact ⟨j,token,hack,hreported.imp_right (fun hdoubt => hdoubt.before hown)⟩
  removed := h.removed

theorem queue_survives_power_loss {o₀ : Object} (hrt : queue.codec.RoundTrips 3)
    (hl : Structural queue.location) (hd : Firm root queue.location (some o₀) d)
    (hempty : queue.emptyBytes (ε := StoreError) = .ok o₀.bytes)
    (hr : Run (Env True) ⟨d,fun i => FilesystemStore.perform ⟨root⟩ (queue.perform (ops i))⟩ tr c)
    (hcrash : Crash c.world d₂) (k : ℕ) :
    ∃ o doc d₃, runAlone k (reopen root queue.location).run d₂ = some (.ok (.ok (some o)),d₃) ∧
      queue.decode (ε := StoreError) o.bytes = .ok doc ∧ Kept ops tr c doc.messages := by
  obtain ⟨s,tr',-,T₁,T₂,m₁,m',d₃,hs,-,hm,hown,hfresh,hr₁,hnone,hread⟩ :=
    hd.found hl (fun i => perform_onStructures hl (ops i)) (fun i => perform_oblivious (ops i)) hr
      hcrash k
  obtain ⟨o,doc,hobj,hdec,hkept⟩ := mirrored_kept_since hrt hs hempty hm hfresh hr₁ hnone
  exact ⟨o,doc,d₃,hobj ▸ hread,hdec,hkept.before hown⟩

-- A second call is cut short between its rename and the sync, and the rename is lost.
theorem told_publish_survives : ∃ d o₀ tr c d₂ o doc d₃, Firm [] jobs.location (some o₀) d ∧
    Run (Env True) ⟨d,fun i => FilesystemStore.perform ⟨[]⟩ (jobs.perform (publishing i))⟩ tr c ∧
    c.calls 0 = .done (.ok (.published 2)) ∧ Crash c.world d₂ ∧
    d₂.entries (join [] jobs.location).path ≠ c.world.entries (join [] jobs.location).path ∧
    runAlone 2 (reopen [] jobs.location).run d₂ = some (.ok (.ok (some o)),d₃) ∧
    jobs.decode (ε := StoreError) o.bytes = .ok doc ∧
    ∃ message ∈ doc.messages, message.id = 2 ∧ message.value = "a" := by
  have hl : Structural jobs.location := ⟨"shop","queues","jobs",by decide,rfl⟩
  have hplay : (jobs.emptyBytes (ε := StoreError)).toOption.any (staged jobs.location Disk.flush
      [(0,40),(1,29)] [2,3,4,5,6,7]
      (fun i => FilesystemStore.perform ⟨[]⟩ (jobs.perform (publishing i)))
      (fun c => ended (told 2) (c.calls 0) && unsynced jobs.location 2 c.world)) = true := by
    decide +kernel
  obtain ⟨b,v,d,tr,c,r,d₂,hb,hfirm,hr,h0,htold,hcrash,hlost⟩ := exists_struck hl
    (fun i => perform_onStructures hl (publishing i)) hplay
  obtain rfl := told_iff.mp htold
  have hrt : jobs.codec.RoundTrips 3 := textCodec_roundTrips (by decide)
  obtain ⟨o,doc,d₃,hread,hdec,hkept⟩ := queue_survives_power_loss hrt hl hfirm
    (except_toOption_eq_some.mp hb) hr hcrash 2
  refine ⟨d,_,tr,c,d₂,o,doc,d₃,hfirm,hr,h0,hcrash,hlost,hread,hdec,?_⟩
  simpa [publishing] using hkept.retained 0 2 "a" rfl h0

end Queue

namespace Log

variable {V : Type} {root : Filesystem.Path} {d d₂ : Disk} {log : Log V} {ops : ℕ → Op V}
  {tr tr' : Trace SysReply} {c : Config Disk SysReply (Except (Error StoreError) (Outcome V))}

theorem Kept.before {records : List (Record V)} (h : Kept ops (tr ++ tr') c records)
    (hown : ∀ ev ∈ tr', Trace.of ev.call tr ≠ []) : Kept ops tr c records where
  increasing := h.increasing
  appended := by
    intro record hmem
    obtain ⟨i,hop,hreported⟩ := h.appended record hmem
    exact ⟨i,hop,hreported.imp_right (fun hdoubt => hdoubt.before hown)⟩
  retained := h.retained

theorem log_survives_power_loss {o₀ : Object} (hrt : log.codec.RoundTrips 3)
    (hl : Structural log.location) (hd : Firm root log.location (some o₀) d)
    (hempty : log.emptyBytes (ε := StoreError) = .ok o₀.bytes)
    (hr : Run (Env True) ⟨d,fun i => FilesystemStore.perform ⟨root⟩ (log.perform (ops i))⟩ tr c)
    (hcrash : Crash c.world d₂) (k : ℕ) :
    ∃ o doc d₃, runAlone k (reopen root log.location).run d₂ = some (.ok (.ok (some o)),d₃) ∧
      log.decode (ε := StoreError) o.bytes = .ok doc ∧ Kept ops tr c doc.records := by
  obtain ⟨s,tr',-,T₁,T₂,m₁,m',d₃,hs,-,hm,hown,hfresh,hr₁,hnone,hread⟩ :=
    hd.found hl (fun i => perform_onStructures hl (ops i)) (fun i => perform_oblivious (ops i)) hr
      hcrash k
  obtain ⟨o,doc,hobj,hdec,hkept⟩ := mirrored_kept_since hrt hs hempty hm hfresh hr₁ hnone
  exact ⟨o,doc,d₃,hobj ▸ hread,hdec,hkept.before hown⟩

theorem told_append_survives : ∃ d o₀ tr c d₂ o doc d₃, Firm [] audit.location (some o₀) d ∧
    Run (Env True) ⟨d,fun i => FilesystemStore.perform ⟨[]⟩ (audit.perform (appending i))⟩ tr c ∧
    c.calls 0 = .done (.ok (.appended 2)) ∧ Crash c.world d₂ ∧
    d₂.entries (join [] audit.location).path ≠ c.world.entries (join [] audit.location).path ∧
    runAlone 2 (reopen [] audit.location).run d₂ = some (.ok (.ok (some o)),d₃) ∧
    audit.decode (ε := StoreError) o.bytes = .ok doc ∧ ⟨2,"a"⟩ ∈ doc.records := by
  have hl : Structural audit.location := ⟨"shop","logs","audit",by decide,rfl⟩
  have hplay : (audit.emptyBytes (ε := StoreError)).toOption.any (staged audit.location Disk.flush
      [(0,40),(1,29)] [2,3,4,5,6,7]
      (fun i => FilesystemStore.perform ⟨[]⟩ (audit.perform (appending i)))
      (fun c => ended (told 2) (c.calls 0) && unsynced audit.location 2 c.world)) = true := by
    decide +kernel
  obtain ⟨b,v,d,tr,c,r,d₂,hb,hfirm,hr,h0,htold,hcrash,hlost⟩ := exists_struck hl
    (fun i => perform_onStructures hl (appending i)) hplay
  obtain rfl := told_iff.mp htold
  have hrt : audit.codec.RoundTrips 3 := textCodec_roundTrips (by decide)
  obtain ⟨o,doc,d₃,hread,hdec,hkept⟩ := log_survives_power_loss hrt hl hfirm
    (except_toOption_eq_some.mp hb) hr hcrash 2
  exact ⟨d,_,tr,c,d₂,o,doc,d₃,hfirm,hr,h0,hcrash,hlost,hread,hdec,
    hkept.retained 0 2 "a" rfl h0⟩

end Log

namespace Map

variable {V : Type} {root : Filesystem.Path} {d d₂ : Disk} {map : Map V} {ops : ℕ → Op V}
  {tr : Trace SysReply} {c : Config Disk SysReply (Except (Error StoreError) (Outcome V))}

-- Power may fail at any moment: a new process reads what the calls that took effect left, every
-- change that was answered among them. One that was cut short may count as if it had gone on.
theorem map_survives_power_loss {o₀ : Object} {d₀ : OwnedMapDocument V}
    (hrt : map.codec.RoundTrips 2) (hl : Structural map.location)
    (hd : Firm root map.location (some o₀) d)
    (hread : map.decode (ε := StoreError) o₀.bytes = .ok d₀)
    (hr : Run (Env True) ⟨d,fun i => FilesystemStore.perform ⟨root⟩ (map.perform (ops i))⟩ tr c)
    (hcrash : Crash c.world d₂) (k : ℕ) :
    ∃ tr' c' out points o doc d₃, Run (Env True) c tr' c' ∧
      (∀ ev ∈ tr', Trace.of ev.call tr ≠ []) ∧
      Persisted d₀.entries ops (tr ++ tr') c out points ∧
      runAlone k (reopen root map.location).run d₂ = some (.ok (.ok (some o)),d₃) ∧
      map.decode (ε := StoreError) o.bytes = .ok doc ∧
      doc.entries = (replay spec d₀.entries (points.map (fun p => ops p.2))).1 := by
  obtain ⟨s,tr',c',T₁,T₂,m₁,m',d₃,hs,hrun,hm,hown,-,hr₁,hnone,hreopen⟩ :=
    hd.found hl (fun i => perform_onStructures hl (ops i)) (fun i => perform_oblivious (ops i)) hr
      hcrash k
  obtain ⟨out,points,o,doc,hpersisted,hobj,hdec,hentries⟩ :=
    mirrored_explained_since hrt hs hread hm hr₁ hnone
  exact ⟨tr',c',out,points,o,doc,d₃,hrun,hown,hpersisted,hobj ▸ hreopen,hdec,hentries⟩

def inserting (i : ℕ) : Op String := if i = 0 then .insert "a" "1" else .insert "b" "2"

theorem told_insert_survives : ∃ d o₀ tr c d₂ v tr' out points o doc d₃,
    Firm [] orders.location (some o₀) d ∧
    Run (Env True) ⟨d,fun i => FilesystemStore.perform ⟨[]⟩ (orders.perform (inserting i))⟩ tr c ∧
    c.calls 0 = .done (.ok (.version v)) ∧ Crash c.world d₂ ∧
    d₂.entries (join [] orders.location).path ≠ c.world.entries (join [] orders.location).path ∧
    Persisted .empty inserting (tr ++ tr') c out points ∧ (out 0).isSome ∧
    runAlone 2 (reopen [] orders.location).run d₂ = some (.ok (.ok (some o)),d₃) ∧
    orders.decode (ε := StoreError) o.bytes = .ok doc ∧
    doc.entries = (replay spec .empty (points.map (fun p => inserting p.2))).1 := by
  have hl : Structural orders.location := ⟨"shop","maps","orders",by decide,rfl⟩
  have hrt : orders.codec.RoundTrips 2 := textCodec_roundTrips (by decide)
  let empty : OwnedMapDocument String := ⟨⟨Core.FORMAT_VERSION,"map","v1"⟩,.empty⟩
  have hplay : (orders.encode (ε := StoreError) empty).toOption.any (staged orders.location
      Disk.flush [(0,40),(1,28)] [2,3,4,5]
      (fun i => FilesystemStore.perform ⟨[]⟩ (orders.perform (inserting i)))
      (fun c => ended inserted (c.calls 0) && unsynced orders.location 2 c.world)) = true := by
    decide +kernel
  obtain ⟨b,v,d,tr,c,r,d₂,hb,hfirm,hr,h0,htold,hcrash,hlost⟩ := exists_struck hl
    (fun i => perform_onStructures hl (inserting i)) hplay
  obtain ⟨v',rfl⟩ := inserted_iff.mp htold
  have hread : orders.decode (ε := StoreError) b = .ok empty :=
    decode_of_encode hrt (except_toOption_eq_some.mp hb) rfl
  obtain ⟨tr',-,out,points,o,doc,d₃,-,-,hpersisted,hreopen,hdec,hentries⟩ :=
    map_survives_power_loss hrt hl hfirm hread hr hcrash 2
  have hout := hpersisted.reported 0 _ h0 rfl
  exact ⟨d,_,tr,c,d₂,v',tr',out,points,o,doc,d₃,hfirm,hr,h0,hcrash,hlost,hpersisted,
    by rw [hout]; rfl,hreopen,hdec,hentries⟩

end Map

end Objsds
